import Agecrypt.Agec.Bech32Errors
import Mathlib.Data.List.GetD

/-!
# The texts that are keys

`KeyText label k t r` says that `t` is a text for the key `k` in lower case:
the label, the separator, 52 groups that hold the bits of `k` and the four
bits `r`, and six characters that end the checksum code at 1.  Both readers
of keys accept exactly texts of this form.  The encoder writes the one with
`r = 0`.
-/

namespace Agecrypt

open Digits

/-- The groups `fs` hold the key and the bits `r`, and `gs` is their
checksum. -/
structure KeyGroups (code : BitVec 32) (k : Bytes 32) (fs gs : List Nat) (r : Nat) : Prop where
  groups : fs.length = 52
  sum : gs.length = 6
  digit : ∀ f ∈ fs ++ gs, f < 32
  check : (fs ++ gs).foldl check5bits code = 1#32
  value : value (2 ^ 5) fs = value (2 ^ 8) (k.val.map UInt8.toNat) * 2 ^ 4 + r
  rest : r < 2 ^ 4

/-- The text of a key under a label, with the bits `r` behind its own. -/
def KeyText (label : List UInt8) (k : Bytes 32) (t : List UInt8) (r : Nat) : Prop :=
  ∃ code fs gs, labelcheck label = some code ∧ KeyGroups code k fs gs r ∧
    t = label ++ [SEPARATOR] ++ grouptext (fs ++ gs)

namespace KeyGroups

variable {code : BitVec 32} {k k' : Bytes 32} {fs gs fs' gs' : List Nat} {r r' : Nat}

theorem digit_left (h : KeyGroups code k fs gs r) : ∀ f ∈ fs, f < 32 :=
  fun f hf => h.digit f (List.mem_append_left _ hf)

theorem digit_right (h : KeyGroups code k fs gs r) : ∀ g ∈ gs, g < 32 :=
  fun g hg => h.digit g (List.mem_append_right _ hg)

/-- The checksum is known by what it is the checksum of. -/
theorem sum_eq (h : KeyGroups code k fs gs r) (h' : KeyGroups code k' fs gs' r') : gs = gs' := by
  have hfold : (fs ++ gs ++ []).foldl check5bits code =
      (fs ++ gs' ++ []).foldl check5bits code := by
    rw [List.append_nil, List.append_nil, h.check, h'.check]
  refine window_eq ?_ ?_ h.digit_right h'.digit_right hfold
  · rw [h.sum, h'.sum]
  · rw [h.sum]

/-- Key and bits behind it say what the groups are. -/
theorem unique (h : KeyGroups code k fs gs r) (h' : KeyGroups code k fs' gs' r) :
    fs = fs' ∧ gs = gs' := by
  have hfs : fs = fs' := by
    have hbase : 1 < 2 ^ 5 := by decide
    refine value_inj hbase ?_ h.digit_left h'.digit_left ?_
    · rw [h.groups, h'.groups]
    · rw [h.value, h'.value]
  subst hfs
  exact ⟨rfl, h.sum_eq h'⟩

/-- The groups say what the bits behind the key are. -/
theorem rest_eq (h : KeyGroups code k fs gs r) (h' : KeyGroups code k fs gs' r') : r = r' := by
  have hv := h.value.symm.trans h'.value
  omega

/-- The bits behind the key are the last four of the last group. -/
theorem last (h : KeyGroups code k fs gs r) : r = fs.getD 51 0 % 16 := by
  have hsplit : fs = fs.take 51 ++ [fs.getD 51 0] := by
    have hlt : 51 < fs.length := by
      rw [h.groups]
      decide
    rw [List.getD_eq_getElem _ _ hlt, List.take_concat_get' fs 51 hlt,
      List.take_of_length_le (by rw [h.groups])]
  have hv := h.value
  rw [hsplit, value_concat] at hv
  have hr := h.rest
  omega

end KeyGroups

/-! ## What the encoder writes -/

theorem keyText_of_encode {label t : List UInt8} {k : Bytes 32}
    (h : bech32encode label k.val = some t) : KeyText label k t 0 := by
  obtain ⟨code, hcode, ht⟩ : ∃ code, labelcheck label = some code ∧
      t = label ++ [SEPARATOR] ++ (encode k.val code).2 ++ encodesum (encode k.val code).1 := by
    rw [bech32encode] at h
    dsimp only at h
    split at h
    · cases h
    · obtain ⟨code, hcode, h⟩ := Option.bind_eq_some_iff.mp h
      exact ⟨code, hcode, (Option.some.inj h).symm⟩
  obtain ⟨fs, hfs, hlt, pad, hpad, hlen, hvalue⟩ := encode_spec k.val code
  rw [k.size_eq] at hlen
  obtain rfl : pad = 4 := by omega
  obtain ⟨gs, hgs, hglt, hsix⟩ := encodesum_text (encode k.val code).1
  refine ⟨code, fs, gs, hcode, ⟨by omega, hsix, ?_, ?_, by rw [hvalue]; rfl, by decide⟩, ?_⟩
  · intro f hf
    rcases List.mem_append.mp hf with hf | hf
    · exact hlt f hf
    · exact hglt f hf
  · have hsum := checksumLoop_encodesum (encode k.val code).1
    rw [hgs] at hsum
    have hfold := (checksumLoop_charval _ hsum).2
    rw [map_charval_grouptext hglt, hfs] at hfold
    rw [List.foldl_append]
    exact hfold
  · rw [ht, grouptext_append, ← hgs, hfs, List.append_assoc (label ++ [SEPARATOR])]

/-- A text of the key is the encoder's exactly when nothing is behind the
key. -/
theorem keyText_encode_iff {label t : List UInt8} {k : Bytes 32} {r : Nat}
    (h : KeyText label k t r) (hlen : label.length ≤ 31) :
    bech32encode label k.val = some t ↔ r = 0 := by
  obtain ⟨code, fs, gs, hcode, hg, rfl⟩ := h
  obtain ⟨t', ht'⟩ := bech32encode_key (by rw [hcode]; rfl) hlen k
  obtain ⟨code', fs', gs', hcode', hg', rfl⟩ := keyText_of_encode ht'
  obtain rfl := Option.some.inj (hcode.symm.trans hcode')
  rw [ht', Option.some.injEq, List.append_cancel_left_eq]
  constructor
  · intro htext
    have hall := grouptext_inj hg'.digit hg.digit htext
    obtain ⟨rfl, rfl⟩ := List.append_inj hall (by rw [hg'.groups, hg.groups])
    exact hg.rest_eq hg'
  · rintro rfl
    obtain ⟨rfl, rfl⟩ := hg.unique hg'
    rfl

/-! ## What the decoder reads -/

theorem exists_lastSeparator {s : List UInt8} (h : SEPARATOR ∈ s) :
    ∃ a b, s = a ++ [SEPARATOR] ++ b ∧ SEPARATOR ∉ b := by
  induction s with
  | nil => cases h
  | cons c cs ih =>
    by_cases hcs : SEPARATOR ∈ cs
    · obtain ⟨a, b, hs, hb⟩ := ih hcs
      exact ⟨c :: a, b, by rw [hs]; rfl, hb⟩
    · rcases List.mem_cons.mp h with rfl | hmem
      · exact ⟨[], cs, rfl, hcs⟩
      · exact absurd hmem hcs

/-- A text that decodes to 32 bytes is the text of a key. -/
theorem keyText_of_decode {s label rest : List UInt8} {k : Bytes 32} {l : Nat}
    (h : bech32decode s = some (k.val, l)) (hs : s.map lowered = label ++ [SEPARATOR] ++ rest)
    (hrest : rest.length = 58) :
    (∃ r, KeyText label k (s.map lowered) r) ∧ ¬ (hasLower s ∧ hasUpper s) := by
  rw [bech32decode, prepare_eq] at h
  dsimp only at h
  split at h
  · cases h
  rename_i hcase
  split at h
  · cases h
  split at h
  · cases h
  split at h
  · cases h
  obtain ⟨code, hcode, h⟩ := Option.bind_eq_some_iff.mp h
  obtain ⟨⟨out, code'⟩, hdec, h⟩ := Option.bind_eq_some_iff.mp h
  obtain ⟨code'', hsum, h⟩ := Option.bind_eq_some_iff.mp h
  dsimp only at h hsum
  split at h
  · cases h
  rename_i hone
  rw [not_not] at hone
  obtain ⟨rfl, -⟩ := Prod.mk.inj (Option.some.inj h)
  refine ⟨?_, hcase⟩
  -- the last separator is the one behind the label, because of the length of the data
  have hlast : lastSeparator s 0 (2 ^ 64 - 1) = lastSeparator (s.map lowered) 0 (2 ^ 64 - 1) :=
    (lastSeparator_map (fun c => (toupper_cases c).2.2.2.2) s _ _).symm
  rw [hlast] at hcode hdec
  set t := s.map lowered with ht
  have hlen : t.length = label.length + 59 := by
    rw [hs]
    simp only [List.length_append, List.length_singleton, hrest]
  obtain ⟨a, b, hab, hb⟩ := exists_lastSeparator (s := t) (by rw [hs]; simp)
  have hpos : lastSeparator t 0 (2 ^ 64 - 1) = a.length := by
    rw [hab, lastSeparator_append a hb, Nat.zero_add]
  rw [hpos] at hcode hdec
  rw [decode] at hdec
  have hchars := bech32decodeLoop_charval _ hdec
  set cs := (t.take (t.length - 6)).drop (a.length + 1) with hcs
  have hfs : ∀ f ∈ cs.map charval, f < 32 := by
    intro f hf
    obtain ⟨c, hc, rfl⟩ := List.mem_map.mp hf
    exact hchars c hc
  rw [← grouptext_charval hchars] at hdec
  obtain ⟨rfl, n, r, hn, hreg⟩ := bech32decodeLoop_groups hfs hdec
  have hbits := hreg.length_eq
  rw [List.length_map, List.length_map, k.size_eq, hcs, List.length_drop, List.length_take] at hbits
  have ha : a.length = label.length := by omega
  obtain rfl : n = 4 := by omega
  obtain ⟨hpre, hbr⟩ := List.append_inj (hab.symm.trans hs) (by
    simp only [List.length_append, List.length_singleton, ha])
  obtain ⟨rfl, -⟩ := List.append_inj hpre ha
  subst hbr
  have hlab : (t ++ [0]).take a.length = a := by
    rw [hab, List.append_assoc, List.append_assoc, List.take_left]
  rw [hlab] at hcode
  -- the 52 characters behind the separator, and the last six
  have hsep : (a ++ [SEPARATOR]).length = a.length + 1 := by
    rw [List.length_append, List.length_singleton]
  have hdata : cs = b.take 52 := by
    rw [hcs, hlen, hab, show a.length + 59 - 6 = (a ++ [SEPARATOR]).length + 52 from by omega,
      List.take_length_add_append, List.drop_left' hsep]
  have hend : t.drop (t.length - 6) = b.drop 52 := by
    rw [hlen, hab, show a.length + 59 - 6 = (a ++ [SEPARATOR]).length + 52 from by omega,
      List.drop_length_add_append]
  rw [checksum, hend] at hsum
  obtain ⟨hgs, hfold⟩ := checksumLoop_charval _ hsum
  refine ⟨r, code, cs.map charval, (b.drop 52).map charval, hcode,
    ⟨?_, ?_, ?_, ?_, ?_, hreg.rest⟩, ?_⟩
  · rw [List.length_map, hdata, List.length_take, hrest]
    rfl
  · rw [List.length_map, List.length_drop, hrest]
  · intro f hf
    rcases List.mem_append.mp hf with hf | hf
    · exact hfs f hf
    · obtain ⟨c, hc, rfl⟩ := List.mem_map.mp hf
      exact hgs c hc
  · rw [List.foldl_append, hfold, hone]
  · exact hreg.value_eq
  · rw [grouptext_append, grouptext_charval hchars, grouptext_charval hgs, hdata,
      List.take_append_drop, hab]

/-! ## The two readers -/

theorem map_lowered_of_lower {s : List UInt8} (h : hasUpper s = false) : s.map lowered = s := by
  conv_rhs => rw [← List.map_id s]
  refine List.map_congr_left fun c hc => ((toupper_cases c).1 fun hup => ?_).1
  have hany : hasUpper s = true := List.any_eq_true.mpr ⟨c, hc, decide_eq_true hup⟩
  rw [h] at hany
  cases hany

theorem map_toupper_lowered {s : List UInt8} (h : hasLower s = false) :
    (s.map lowered).map toupper = s := by
  rw [List.map_map]
  conv_rhs => rw [← List.map_id s]
  refine List.map_congr_left fun c hc => (toupper_cases c).2.1 fun hlow => ?_
  have hany : hasLower s = true := List.any_eq_true.mpr ⟨c, hc, decide_eq_true hlow⟩
  rw [h] at hany
  cases hany

theorem ofList?_eq_some {n : Nat} {bs : List UInt8} {b : Bytes n}
    (h : Bytes.ofList? n bs = some b) : bs = b.val := by
  rw [Bytes.ofList?] at h
  split at h
  · rw [← Option.some.inj h]
  · cases h

/-- A recipient is in lower case, because its label is. -/
theorem keyText_of_x25519pubkey {s : List UInt8} {k : Bytes 32} (h : x25519pubkey s = some k) :
    ∃ r, KeyText (ascii "age") k s r := by
  rw [x25519pubkey] at h
  split at h
  · cases h
  rename_i hlen
  split at h
  · cases h
  rename_i hpre
  rw [not_not] at hlen hpre
  obtain ⟨⟨data, l⟩, hdec, hk⟩ := Option.bind_eq_some_iff.mp h
  have hdata : data = k.val := ofList?_eq_some hk
  rw [hdata] at hdec
  have hsplit : s.map lowered = ascii "age" ++ [SEPARATOR] ++ (s.drop 4).map lowered := by
    have hmap : (s.take 4).map lowered = ascii "age" ++ [SEPARATOR] := by
      rw [hpre]
      decide +kernel
    rw [← hmap, ← List.map_append, List.take_append_drop]
  have hrest : ((s.drop 4).map lowered).length = 58 := by
    rw [List.length_map, List.length_drop, hlen]
    rfl
  obtain ⟨⟨r, htext⟩, hcase⟩ := keyText_of_decode hdec hsplit hrest
  have hlow : hasLower s = true := by
    rw [← List.take_append_drop 4 s, hpre]
    rfl
  have hup : hasUpper s = false := by
    cases hup : hasUpper s with
    | false => rfl
    | true => exact absurd ⟨hlow, hup⟩ hcase
  rw [map_lowered_of_lower hup] at htext
  exact ⟨r, htext⟩

/-- An identity is in upper case, because its label is. -/
theorem keyText_of_x25519privkey {s : List UInt8} {k : Bytes 32} (hlen : s.length = 74)
    (h : x25519privkey s = some k) :
    ∃ t r, s = t.map toupper ∧ KeyText (ascii "age-secret-key-") k t r := by
  rw [x25519privkey] at h
  dsimp only at h
  rw [List.take_of_length_le (Nat.le_of_eq hlen)] at h
  split at h
  · cases h
  rename_i hpre
  rw [not_not] at hpre
  obtain ⟨⟨data, l⟩, hdec, hk⟩ := Option.bind_eq_some_iff.mp h
  have hdata : data = k.val := ofList?_eq_some hk
  rw [hdata] at hdec
  have hsplit : s.map lowered =
      ascii "age-secret-key-" ++ [SEPARATOR] ++ (s.drop 16).map lowered := by
    have hmap : (s.take 16).map lowered = ascii "age-secret-key-" ++ [SEPARATOR] := by
      rw [hpre]
      decide +kernel
    rw [← hmap, ← List.map_append, List.take_append_drop]
  have hrest : ((s.drop 16).map lowered).length = 58 := by
    rw [List.length_map, List.length_drop, hlen]
  obtain ⟨⟨r, htext⟩, hcase⟩ := keyText_of_decode hdec hsplit hrest
  have hup : hasUpper s = true := by
    rw [← List.take_append_drop 16 s, hpre]
    rfl
  have hlow : hasLower s = false := by
    cases hlow : hasLower s with
    | false => rfl
    | true => exact absurd ⟨hlow, hup⟩ hcase
  exact ⟨s.map lowered, r, (map_toupper_lowered hlow).symm, htext⟩

/-! ## Texts that differ in a few characters -/

/-- Two key texts under one label that differ only inside six neighbouring
characters are the same. -/
theorem KeyText.window {label s t pre x y post : List UInt8} {k k' : Bytes 32} {r r' : Nat}
    (hs : KeyText label k s r) (ht : KeyText label k' t r') (hx : s = pre ++ x ++ post)
    (hy : t = pre ++ y ++ post) (hsix : x.length ≤ 6) : s = t := by
  obtain ⟨code, fs, gs, hcode, hg, hsform⟩ := hs
  obtain ⟨code', fs', gs', hcode', hg', htform⟩ := ht
  obtain rfl := Option.some.inj (hcode.symm.trans hcode')
  have hlen : s.length = t.length := by
    rw [hsform, htform]
    simp only [List.length_append, grouptext, List.length_map, hg.groups, hg.sum, hg'.groups,
      hg'.sum]
  have hxy : x.length = y.length := by
    rw [hx, hy] at hlen
    simp only [List.length_append] at hlen
    omega
  -- what is left of the window behind the separator
  obtain ⟨n, hn⟩ : ∃ n, n = (label ++ [SEPARATOR]).length := ⟨_, rfl⟩
  have hcut : ∀ {u v : List UInt8}, u.length = x.length → v = pre ++ u ++ post → v.drop n =
      pre.drop n ++ u.drop (n - pre.length) ++ post.drop (n - (pre.length + x.length)) := by
    intro u v hu hv
    rw [hv, List.drop_append, List.drop_append, List.length_append, hu]
  have hsdrop : s.drop n = grouptext (fs ++ gs) := by
    rw [hsform, hn, List.drop_left]
  have htdrop : t.drop n = grouptext (fs' ++ gs') := by
    rw [htform, hn, List.drop_left]
  have hS := congrArg (List.map charval) (hsdrop.symm.trans (hcut rfl hx))
  have hT := congrArg (List.map charval) (htdrop.symm.trans (hcut hxy.symm hy))
  rw [map_charval_grouptext hg.digit, List.map_append, List.map_append] at hS
  rw [map_charval_grouptext hg'.digit, List.map_append, List.map_append] at hT
  have hwin : (x.drop (n - pre.length)).map charval = (y.drop (n - pre.length)).map charval := by
    refine window_eq ?_ ?_ ?_ ?_ (hS ▸ hT ▸ hg.check.trans hg'.check.symm)
    · rw [List.length_map, List.length_map, List.length_drop, List.length_drop, hxy]
    · rw [List.length_map, List.length_drop]
      omega
    · intro f hf
      refine hg.digit f ?_
      rw [hS]
      exact List.mem_append_left _ (List.mem_append_right _ hf)
    · intro f hf
      refine hg'.digit f ?_
      rw [hT]
      exact List.mem_append_left _ (List.mem_append_right _ hf)
  rw [hwin] at hS
  rw [hsform, htform, hS, hT]

/-- Where the bits behind the key stand in the text. -/
theorem KeyText.rest {label t : List UInt8} {k : Bytes 32} {r : Nat} (h : KeyText label k t r) :
    r = charval (t.getD (label.length + 52) 0) % 16 := by
  obtain ⟨code, fs, gs, -, hg, rfl⟩ := h
  have hpos : label.length + 52 = (label ++ [SEPARATOR]).length + 51 := by
    rw [List.length_append, List.length_singleton]
  have hlt : 51 < fs.length := by
    rw [hg.groups]
    decide
  have hchar : (label ++ [SEPARATOR] ++ grouptext (fs ++ gs)).getD (label.length + 52) 0 =
      dictchar (fs.getD 51 0) := by
    rw [hpos, List.getD_append_right _ _ _ _ (by omega), Nat.add_sub_cancel_left, grouptext_append,
      List.getD_append _ _ _ _ (by rw [grouptext, List.length_map]; exact hlt)]
    rw [List.getD_eq_getElem _ _ hlt,
      List.getD_eq_getElem _ _ (by rw [grouptext, List.length_map]; exact hlt)]
    simp only [grouptext, List.getElem_map]
  have hdigit : fs.getD 51 0 < 32 := by
    rw [List.getD_eq_getElem _ _ hlt]
    exact hg.digit_left _ (List.getElem_mem hlt)
  rw [hchar, charval_dictchar hdigit]
  exact hg.last

theorem KeyText.noUpper {label t : List UInt8} {k : Bytes 32} {r : Nat} (h : KeyText label k t r)
    (hlabel : NoUpper label) : NoUpper t := by
  obtain ⟨code, fs, gs, -, hg, rfl⟩ := h
  intro c hc
  rcases List.mem_append.mp hc with hc | hc
  · rcases List.mem_append.mp hc with hc | hc
    · exact hlabel c hc
    · rw [List.mem_singleton.mp hc]
      decide
  · obtain ⟨f, hf, rfl⟩ := List.mem_map.mp hc
    exact (noUpper_dictchar (hg.digit f hf)).1

/-- A text in lower case comes back from upper case. -/
theorem map_lowered_toupper {t : List UInt8} (h : NoUpper t) : (t.map toupper).map lowered = t := by
  rw [List.map_map]
  conv_rhs => rw [← List.map_id t]
  exact List.map_congr_left fun c hc => ((toupper_cases c).1 (h c hc)).2

end Agecrypt
