import Agecrypt.Agec.KeyText
import Agecrypt.Lib.Runs
import Agecrypt.Package.Identity

/-!
# The strings that are accepted as keys

What `parse_recipients` and `keybuf_push` accept, and with which key.  A
mistyped key is not accepted: the checksum sees every difference inside six
neighbouring characters.  The decoder does not look at the four bits behind
the 256 of the key, so that a key has sixteen spellings and the encoder's is
the one with zeros there.
-/

namespace Agecrypt

open ProgE (Runs runs_pure runs_op_bind runs_bind exists_runs exists_runs_at)

/-- Some run of `parse_recipients` accepts the string as one of its elements,
with the key. -/
def AcceptsRecipient (s : List UInt8) (k : Bytes 32) : Prop :=
  ∃ (els : List (Option (List UInt8))) (recs : List (Bytes 32)) (io io' : Io Sys) (i : Nat),
    Runs pkgHandler (parseRecipients (.str els)) io (.ok (.ok recs)) io' ∧
      els[i]? = some (some s) ∧ recs[i]? = some k

/-- Some run of `keybuf_push` accepts the string and appends the key. -/
def AcceptsIdentity (s : List UInt8) (k : Bytes 32) : Prop :=
  ∃ (kb kb' : Keybuf) (io io' : Io Sys),
    Runs pkgHandler (keybufPush kb s) io (.ok (.ok, kb')) io' ∧ kb'.keys = kb.keys ++ [k]

/-! ## What they decode -/

/-- The loop decodes every element. -/
theorem parseRecipientsLoop_ok (els : List (Option (List UInt8))) :
    ∀ {recs recs' : List (Bytes 32)}, parseRecipientsLoop els recs = .ok recs' →
    ∃ ks, recs' = recs ++ ks ∧ els.length = ks.length ∧
      ∀ (i : Nat) (s : List UInt8), els[i]? = some (some s) →
        ∃ k, ks[i]? = some k ∧ x25519pubkey s = some k := by
  induction els with
  | nil =>
    intro recs recs' h
    refine ⟨[], ?_, rfl, fun i s hi => by cases hi⟩
    rw [List.append_nil]
    exact (Except.ok.inj h).symm
  | cons el els ih =>
    intro recs recs' h
    cases el with
    | none => cases h
    | some s =>
      rw [parseRecipientsLoop] at h
      split at h
      · cases h
      cases hk : x25519pubkey s with
      | none =>
        rw [hk] at h
        cases h
      | some k =>
        rw [hk] at h
        obtain ⟨ks, hrecs, hlen, hks⟩ := ih h
        refine ⟨k :: ks, ?_, ?_, fun i t hi => ?_⟩
        · rw [hrecs, List.append_assoc, List.singleton_append]
        · rw [List.length_cons, List.length_cons, hlen]
        · cases i with
          | zero =>
            obtain rfl : s = t := by simpa using hi
            exact ⟨k, rfl, hk⟩
          | succ i => exact hks i t hi

theorem AcceptsRecipient.decodes {s : List UInt8} {k : Bytes 32} (h : AcceptsRecipient s k) :
    x25519pubkey s = some k := by
  obtain ⟨els, recs, io, io', i, hr, hi, hk⟩ := h
  rw [parseRecipients] at hr
  split at hr
  · have hbad := Except.ok.inj (runs_pure.mp hr).1
    cases hbad
  obtain ⟨b, io₁, -, hr⟩ := runs_op_bind.mp hr
  split at hr
  · have hbad := Except.ok.inj (runs_pure.mp hr).1
    cases hbad
  have hloop := Except.ok.inj (runs_pure.mp hr).1
  obtain ⟨ks, hrecs, -, hks⟩ := parseRecipientsLoop_ok els hloop.symm
  rw [List.nil_append] at hrecs
  obtain ⟨k', hk', hs⟩ := hks i s hi
  rw [← hrecs, hk] at hk'
  rw [hs, Option.some.inj hk']

theorem keybufGrow_keys {kb kb' : Keybuf} {io io' : Io Sys}
    (h : Runs pkgHandler (keybufGrow kb) io (.ok (some kb')) io') : kb'.keys = kb.keys := by
  rw [keybufGrow] at h
  split at h
  · obtain ⟨b, io₁, -, h⟩ := runs_op_bind.mp h
    split at h
    · rw [Option.some.inj (Except.ok.inj (runs_pure.mp h).1)]
    · have hbad := Except.ok.inj (runs_pure.mp h).1
      cases hbad
  · rw [Option.some.inj (Except.ok.inj (runs_pure.mp h).1)]

theorem AcceptsIdentity.decodes {s : List UInt8} {k : Bytes 32} (h : AcceptsIdentity s k) :
    s.length = 74 ∧ x25519privkey s = some k := by
  obtain ⟨kb, kb', io, io', hr, hk⟩ := h
  rw [keybufPush] at hr
  split at hr
  · have hbad := Except.ok.inj (runs_pure.mp hr).1
    cases hbad
  rename_i hlen
  refine ⟨not_not.mp hlen, ?_⟩
  rcases runs_bind.mp hr with ⟨e, -, hbad⟩ | ⟨grown, io₁, hg, hr⟩
  · cases hbad
  cases grown with
  | none =>
    have hbad := Except.ok.inj (runs_pure.mp hr).1
    cases hbad
  | some kb₁ =>
    dsimp only at hr
    cases hkey : x25519privkey s with
    | none =>
      rw [hkey] at hr
      have hbad := Except.ok.inj (runs_pure.mp hr).1
      cases hbad
    | some key =>
      rw [hkey] at hr
      dsimp only at hr
      split at hr
      · have hkb := (Prod.mk.inj (Except.ok.inj (runs_pure.mp hr).1)).2
        rw [hkb, keybufGrow_keys hg, List.append_cancel_left_eq] at hk
        rw [(List.cons.inj hk).1]
      · obtain ⟨x, -⟩ := runs_op_bind.mp hr
        exact nomatch x

/-! ## Spellings -/

/-- An accepted recipient or identity is the text that the encoder writes for
its key exactly when the four bits behind the key are zero. -/
theorem spelling_iff (s : List UInt8) (k : Bytes 32) :
    (AcceptsRecipient s k →
      (bech32encode (ascii "age") k.val = some s ↔ charval (s.getD 55 0) % 16 = 0)) ∧
    (AcceptsIdentity s k →
      ((bech32encode (ascii "age-secret-key-") k.val).map (List.map toupper) = some s ↔
        charval (lowered (s.getD 67 0)) % 16 = 0)) := by
  constructor
  · intro h
    obtain ⟨r, htext⟩ := keyText_of_x25519pubkey h.decodes
    have hpos : (ascii "age").length + 52 = 55 := rfl
    have hrest := htext.rest
    rw [hpos] at hrest
    rw [← hrest]
    exact keyText_encode_iff htext (by decide)
  · intro h
    obtain ⟨hlen, hkey⟩ := h.decodes
    obtain ⟨t, r, rfl, htext⟩ := keyText_of_x25519privkey hlen hkey
    have hlabel : NoUpper (ascii "age-secret-key-") := by decide +kernel
    have hback := map_lowered_toupper (htext.noUpper hlabel)
    have hshort : (ascii "age-secret-key-").length ≤ 31 := by decide
    have hchar : lowered ((t.map toupper).getD 67 0) = t.getD 67 0 := by
      rw [List.length_map] at hlen
      have hlt : 67 < t.length := by omega
      have hlt' : 67 < (t.map toupper).length := by rwa [List.length_map]
      rw [List.getD_eq_getElem _ _ hlt', List.getD_eq_getElem _ _ hlt, List.getElem_map]
      exact ((toupper_cases _).1 (htext.noUpper hlabel _ (List.getElem_mem hlt))).2
    have hpos : (ascii "age-secret-key-").length + 52 = 67 := rfl
    have hrest := htext.rest
    rw [hpos] at hrest
    rw [hchar, ← hrest, ← keyText_encode_iff htext hshort]
    constructor
    · intro hmap
      obtain ⟨u, hu, hut⟩ := Option.map_eq_some_iff.mp hmap
      have hlow := map_lowered_toupper ((keyText_of_encode hu).noUpper hlabel)
      rw [hu, ← hlow, hut, hback]
    · intro henc
      rw [henc]
      rfl

/-- Thirty-two times the byte 7. -/
def sevens : Bytes 32 := ⟨List.replicate 32 7, by decide⟩

/-- The text of `sevens` as a recipient, and the one with the bits 0001
behind the key. -/
def sevensText : List UInt8 :=
  ascii "age1qurswpc8qurswpc8qurswpc8qurswpc8qurswpc8qurswpc8qurs95jt69"

def sevensRespelled : List UInt8 :=
  ascii "age1qurswpc8qurswpc8qurswpc8qurswpc8qurswpc8qurswpc8qur3czx78h"

/-- A single recipient that decodes is accepted. -/
theorem acceptsRecipient_of_decodes {s : List UInt8} {k : Bytes 32}
    (h : parseRecipientsLoop [some s] [] = .ok [k]) : AcceptsRecipient s k := by
  have hrun : Runs pkgHandler (parseRecipients (.str [some s])) (Io.fresh []) (.ok (.ok [k]))
      { Io.fresh [] with dev := (Sys.malloc 32 (Io.fresh []).dev).2 } := by
    have hone : ¬ [some s].length = 0 := Nat.one_ne_zero
    rw [parseRecipients, if_neg hone]
    refine runs_op_bind.mpr ⟨true, _, rfl, ?_⟩
    rw [if_neg (not_not.mpr rfl), h]
    exact runs_pure.mpr ⟨rfl, rfl⟩
  exact ⟨[some s], [k], _, _, 0, hrun, rfl, rfl⟩

theorem spelling_iff_sevens :
    bech32encode (ascii "age") sevens.val = some sevensText ↔
      charval (sevensText.getD 55 0) % 16 = 0 := by
  have haccept : AcceptsRecipient sevensText sevens :=
    acceptsRecipient_of_decodes (by decide +kernel)
  exact (spelling_iff sevensText sevens).1 haccept

/-- The respelled text is accepted with the same key. -/
theorem respelled_accepted :
    AcceptsRecipient sevensRespelled sevens ∧
      bech32encode (ascii "age") sevens.val ≠ some sevensRespelled := by
  constructor
  · exact acceptsRecipient_of_decodes (by decide +kernel)
  · decide +kernel

/-! ## Mistyped keys -/

/-- Two accepted strings of one kind that differ only inside six neighbouring
characters are the same. -/
theorem accepted_window {pre x y post : List UInt8} (hsix : x.length ≤ 6) :
    (∀ k k', AcceptsRecipient (pre ++ x ++ post) k → AcceptsRecipient (pre ++ y ++ post) k' →
      pre ++ x ++ post = pre ++ y ++ post) ∧
    ∀ k k', AcceptsIdentity (pre ++ x ++ post) k → AcceptsIdentity (pre ++ y ++ post) k' →
      pre ++ x ++ post = pre ++ y ++ post := by
  constructor
  · intro k k' hs ht
    obtain ⟨r, hstext⟩ := keyText_of_x25519pubkey hs.decodes
    obtain ⟨r', httext⟩ := keyText_of_x25519pubkey ht.decodes
    exact hstext.window httext rfl rfl hsix
  · intro k k' hs ht
    obtain ⟨hslen, hskey⟩ := hs.decodes
    obtain ⟨htlen, htkey⟩ := ht.decodes
    obtain ⟨u, r, hsu, hstext⟩ := keyText_of_x25519privkey hslen hskey
    obtain ⟨v, r', htv, httext⟩ := keyText_of_x25519privkey htlen htkey
    have hlabel : NoUpper (ascii "age-secret-key-") := by decide +kernel
    have hu := map_lowered_toupper (hstext.noUpper hlabel)
    have hv := map_lowered_toupper (httext.noUpper hlabel)
    rw [← hsu] at hu
    rw [← htv] at hv
    rw [List.map_append, List.map_append] at hu hv
    have hsix' : (x.map lowered).length ≤ 6 := by
      rw [List.length_map]
      exact hsix
    have huv : u = v := hstext.window httext hu.symm hv.symm hsix'
    rw [hsu, htv, huv]

/-- A string that was mistyped in a window of at most six characters is not
accepted beside the right one; in particular not one with a character
replaced, or with two neighbours swapped. -/
theorem mistyped_not_accepted (pre post : List UInt8) :
    (∀ x y : List UInt8, x.length ≤ 6 → y.length ≤ 6 → pre ++ x ++ post ≠ pre ++ y ++ post →
      ¬ ((∃ k, AcceptsRecipient (pre ++ x ++ post) k) ∧
          ∃ k, AcceptsRecipient (pre ++ y ++ post) k) ∧
        ¬ ((∃ k, AcceptsIdentity (pre ++ x ++ post) k) ∧
          ∃ k, AcceptsIdentity (pre ++ y ++ post) k)) ∧
    ∀ c d : UInt8, c ≠ d →
      (∀ k, AcceptsRecipient (pre ++ [c] ++ post) k →
        ¬ ∃ k', AcceptsRecipient (pre ++ [d] ++ post) k') ∧
      (∀ k, AcceptsRecipient (pre ++ [c, d] ++ post) k →
        ¬ ∃ k', AcceptsRecipient (pre ++ [d, c] ++ post) k') ∧
      (∀ k, AcceptsIdentity (pre ++ [c] ++ post) k →
        ¬ ∃ k', AcceptsIdentity (pre ++ [d] ++ post) k') ∧
      ∀ k, AcceptsIdentity (pre ++ [c, d] ++ post) k →
        ¬ ∃ k', AcceptsIdentity (pre ++ [d, c] ++ post) k' := by
  have hwindow : ∀ x y : List UInt8, x.length ≤ 6 → x ≠ y →
      (∀ k, AcceptsRecipient (pre ++ x ++ post) k →
        ¬ ∃ k', AcceptsRecipient (pre ++ y ++ post) k') ∧
      ∀ k, AcceptsIdentity (pre ++ x ++ post) k →
        ¬ ∃ k', AcceptsIdentity (pre ++ y ++ post) k' := by
    intro x y hx hne
    have hneq : pre ++ x ++ post ≠ pre ++ y ++ post := by
      intro h
      exact hne (List.append_cancel_left (List.append_cancel_right h))
    obtain ⟨hrec, hid⟩ := accepted_window hx
    exact ⟨fun k hk ⟨k', hk'⟩ => hneq (hrec k k' hk hk'),
      fun k hk ⟨k', hk'⟩ => hneq (hid k k' hk hk')⟩
  refine ⟨fun x y hx _ hneq => ?_, fun c d hcd => ?_⟩
  · have hne : x ≠ y := by
      rintro rfl
      exact hneq rfl
    obtain ⟨hrec, hid⟩ := hwindow x y hx hne
    exact ⟨fun ⟨⟨k, hk⟩, hk'⟩ => hrec k hk hk', fun ⟨⟨k, hk⟩, hk'⟩ => hid k hk hk'⟩
  · have hone : [c] ≠ [d] := fun h => hcd (List.cons.inj h).1
    have htwo : [c, d] ≠ [d, c] := fun h => hcd (List.cons.inj h).1
    obtain ⟨hrec, hid⟩ := hwindow [c] [d] (Nat.le_add_left 1 5) hone
    obtain ⟨hrec', hid'⟩ := hwindow [c, d] [d, c] (Nat.le_add_left 2 4) htwo
    exact ⟨hrec, hrec', hid, hid'⟩

/-- The fifth character of an accepted recipient, replaced. -/
theorem mistyped_not_accepted_sevens :
    AcceptsRecipient sevensText sevens ∧
      ¬ ∃ k, AcceptsRecipient (ascii "age1" ++ [0x70] ++ sevensText.drop 5) k := by
  have haccept : AcceptsRecipient sevensText sevens :=
    acceptsRecipient_of_decodes (by decide +kernel)
  refine ⟨haccept, ?_⟩
  have hsplit : ascii "age1" ++ [0x71] ++ sevensText.drop 5 = sevensText := by decide +kernel
  have hne : (0x71 : UInt8) ≠ 0x70 := by decide
  have hreplaced := ((mistyped_not_accepted (ascii "age1") (sevensText.drop 5)).2 0x71 0x70 hne).1
  rw [hsplit] at hreplaced
  exact hreplaced sevens haccept

end Agecrypt
