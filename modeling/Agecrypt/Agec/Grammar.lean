import Agecrypt.Agec.Base64Text
import Agecrypt.Agec.Parse

/-!
# The grammar of the header

A header is the version line, a text for each stanza, and the line of the
MAC.  `StanzaForm` keeps everything that the text of a stanza is made of,
also of one whose type the parser does not know.

The parser is not as strict as the grammar: it takes a type that is empty,
and behind full groups of a last body line one more character.  `Accepted`
are the forms that it takes, `Proper` those of the grammar, and `Slips` is
the difference.
-/

namespace Agecrypt

/-- Unpadded base64 without unused bits. -/
def Canonical (line : List UInt8) : Prop := ∃ d, line = base64encode d false

/-- What the text of a stanza is made of. -/
inductive StanzaForm where
  | x25519 (share body : Bytes 32)
  | scrypt (salt : Bytes 16) (digits : List UInt8) (body : Bytes 32)
  | other (type : List UInt8) (args : List (List UInt8)) (lines : List (List UInt8))
      (last : List UInt8)

/-- Arguments behind the type, each with the space in front of it. -/
def spaced (args : List (List UInt8)) : List UInt8 := (args.map (SP :: ·)).flatten

/-- The body lines that are full, each with its newline. -/
def fullLines (lines : List (List UInt8)) : List UInt8 := (lines.map (· ++ [NL])).flatten

namespace StanzaForm

/-- The text behind `-> `. -/
def tail : StanzaForm → List UInt8
  | x25519 share body =>
    argx25519 ++ [SP] ++ base64encode share.val false ++ [NL] ++
      base64encode body.val false ++ [NL]
  | scrypt salt digits body =>
    argscrypt ++ [SP] ++ base64encode salt.val false ++ [SP] ++ digits ++ [NL] ++
      base64encode body.val false ++ [NL]
  | other type args lines last =>
    type ++ spaced args ++ [NL] ++ fullLines lines ++ last ++ [NL]

def text (f : StanzaForm) : List UInt8 := stanzaBegin ++ f.tail

/-- The stanza that the text stands for. -/
def stanza : StanzaForm → Stanza
  | x25519 share body => .x25519 ⟨share, body⟩
  | scrypt salt digits body => .scrypt ⟨salt, body, atoi digits⟩
  | other _ _ _ _ => .unknown

end StanzaForm

/-- One to four digits without a leading zero. -/
def WorkFactor (digits : List UInt8) : Prop :=
  digits ≠ [] ∧ digits.length ≤ 4 ∧ (∀ c ∈ digits, 48 ≤ c ∧ c ≤ 57) ∧ digits.head? ≠ some 48

/-- Characters of an argument. -/
def Visible (arg : List UInt8) : Prop := ∀ c ∈ arg, vchar c = true

instance (arg : List UInt8) : Decidable (Visible arg) :=
  inferInstanceAs (Decidable (∀ c ∈ arg, vchar c = true))

/-- A type that the parser does not know. -/
def Foreign (type : List UInt8) : Prop := type ≠ argscrypt ∧ type ≠ argx25519

/-- The forms of the grammar. -/
def StanzaForm.Proper : StanzaForm → Prop
  | x25519 _ _ => True
  | scrypt _ digits _ => WorkFactor digits
  | other type args lines last =>
    Foreign type ∧ (∀ arg ∈ type :: args, arg ≠ [] ∧ Visible arg) ∧
      (∀ line ∈ lines, line.length = 64 ∧ Canonical line) ∧ last.length < 64 ∧ Canonical last

/-- The forms that the parser takes. -/
def StanzaForm.Accepted : StanzaForm → Prop
  | x25519 _ _ => True
  | scrypt _ digits _ => WorkFactor digits
  | other type args lines last =>
    Foreign type ∧ Visible type ∧ (∀ arg ∈ args, arg ≠ [] ∧ Visible arg) ∧
      (∀ line ∈ lines, line.length = 64 ∧ base64decode line false ≠ none) ∧
      last.length < 64 ∧ base64decode last false ≠ none

/-- The type is missing, or the last body line has a lone character. -/
def StanzaForm.Slips : StanzaForm → Prop
  | other type _ _ last => type = [] ∨ last.length % 4 = 1
  | _ => False

/-- Without a lone character the decoder takes the canonical lines. -/
theorem canonical_iff {line : List UInt8} (hmod : line.length % 4 ≠ 1) :
    base64decode line false ≠ none ↔ Canonical line := by
  constructor
  · intro h
    obtain ⟨d, hd⟩ := Option.ne_none_iff_exists'.mp h
    exact ⟨d, (plain_iff hmod).mp hd⟩
  · rintro ⟨d, hd⟩ h
    rw [(plain_iff hmod).mpr hd] at h
    cases h

theorem Canonical.length_mod {line : List UInt8} (h : Canonical line) : line.length % 4 ≠ 1 := by
  obtain ⟨d, rfl⟩ := h
  exact length_plain_mod d

theorem StanzaForm.proper_iff (f : StanzaForm) : f.Proper ↔ f.Accepted ∧ ¬ f.Slips := by
  cases f with
  | x25519 share body => simp [Proper, Accepted, Slips]
  | scrypt salt digits body => simp [Proper, Accepted, Slips]
  | other type args lines last =>
    have hlines : (∀ line ∈ lines, line.length = 64 ∧ Canonical line) ↔
        ∀ line ∈ lines, line.length = 64 ∧ base64decode line false ≠ none := by
      apply forall₂_congr
      intro line _
      apply and_congr_right
      intro hlen
      exact (canonical_iff (by omega)).symm
    simp only [Proper, Accepted, Slips, List.forall_mem_cons, hlines]
    constructor
    · rintro ⟨hforeign, ⟨htype, hargs⟩, hfull, hlast, hcan⟩
      have hmod := hcan.length_mod
      refine ⟨⟨hforeign, htype.2, hargs, hfull, hlast, (canonical_iff hmod).mpr hcan⟩, ?_⟩
      intro hslip
      exact hslip.elim htype.1 hmod
    · rintro ⟨⟨hforeign, htype, hargs, hfull, hlast, hdec⟩, hslip⟩
      have hmod : last.length % 4 ≠ 1 := fun h => hslip (.inr h)
      exact ⟨hforeign, ⟨⟨fun h => hslip (.inl h), htype⟩, hargs⟩, hfull, hlast,
        (canonical_iff hmod).mp hdec⟩

/-! ## Headers -/

/-- The text of a header up to the MAC. -/
def macText (forms : List StanzaForm) : List UInt8 :=
  versionLine ++ (forms.map StanzaForm.text).flatten ++ stanzaEnd

/-- The text of a header. -/
def headerText (forms : List StanzaForm) (mac : Bytes 32) : List UInt8 :=
  macText forms ++ [SP] ++ base64encode mac.val false ++ [NL]

end Agecrypt
