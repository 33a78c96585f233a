import Agecrypt.Agec.HeaderMac
import Agecrypt.Agec.HeaderWriter
import Agecrypt.Agec.PayloadStream

/-!
# What encryption sends

When encryption succeeds, it has sent a header with the stanzas of the
recipients, a nonce, and the `STREAM` of its input, as they are or as armored
text between the two lines.  Which keys and nonces these are is a matter of
the draws alone, and nothing depends on the schedule of the descriptors.
-/

namespace Agecrypt

open ProgE

/-! ## On the machine -/

/-- The output has been given `w` behind `pre`, and `d` are the draws to
come; the input is as it was. -/
structure Filled (inp : Inp) (isarmor : Bool) (pre : List UInt8) (am : Am) (d : Nat → Draw)
    (w : List UInt8) : Prop where
  inp : am.inp = inp
  draws : am.draws = d
  isarmor : am.snk.isarmor = isarmor
  has : am.snk.Has pre w

theorem gathers_filled (inp : Inp) (isarmor : Bool) (pre : List UInt8) :
    Gathers (Filled inp isarmor pre) (fun o => amHandler (.wr o)) := by
  constructor
  · intro am d w bs am' h ho
    obtain ⟨-, rfl⟩ := Prod.mk.inj (Option.some.inj ho)
    exact ⟨h.inp, h.draws, (Snk.bwrite_isarmor bs am.snk).trans h.isarmor, h.has.bwrite bs⟩
  · intro am d w n r am' h ho
    obtain ⟨rfl, rfl⟩ := Prod.mk.inj (Option.some.inj ho)
    exact ⟨by rw [h.draws], h.inp, by rw [← h.draws]; rfl, h.isarmor, h.has⟩

/-- A file, as it is or as armored text. -/
def fileText (isarmor : Bool) (raw : List UInt8) : List UInt8 :=
  if isarmor then armorfirst ++ (armorText raw ++ armorlast) else raw

section

variable {α : Type} {am am' : Am}

theorem runs_armorline {line : List UInt8} {r : Except String Unit} :
    Runs (fun o => amHandler (.wr o)) (armorline line) am r am' ↔
      r = .ok () ∧
        am' = if am.snk.isarmor then { am with snk := am.snk.writeall line } else am := by
  unfold armorline
  constructor
  · intro hr
    obtain ⟨b, am₁, ho, hr⟩ := runs_op_bind.mp hr
    obtain ⟨rfl, rfl⟩ := Prod.mk.inj (Option.some.inj ho)
    split at hr
    · rename_i harm
      obtain ⟨ok, am₂, ho, hr⟩ := runs_op_bind.mp hr
      obtain ⟨rfl, rfl⟩ := Prod.mk.inj (Option.some.inj ho)
      rw [if_pos rfl] at hr
      rw [if_pos harm]
      exact runs_pure.mp hr
    · rename_i harm
      rw [if_neg harm]
      exact runs_pure.mp hr
  · intro ⟨hr, ham⟩
    refine runs_op_bind.mpr ⟨am.snk.isarmor, am, rfl, ?_⟩
    split
    · rename_i harm
      rw [if_pos harm] at ham
      refine runs_op_bind.mpr ⟨true, _, rfl, ?_⟩
      rw [if_pos rfl]
      exact runs_pure.mpr ⟨hr, ham⟩
    · rename_i harm
      rw [if_neg harm] at ham
      exact runs_pure.mpr ⟨hr, ham⟩

theorem sent_armorline {line : List UInt8}
    (hr : Runs (fun o => amHandler (.wr o)) (armorline line) am (.ok ()) am') :
    am'.snk.sent = am.snk.sent ++ if am.snk.isarmor then line else [] := by
  obtain ⟨-, rfl⟩ := runs_armorline.mp hr
  split
  · rfl
  · rw [List.append_nil]

/-- The draw of `n` bytes. -/
theorem runs_draw {n : Nat} {f : Option (Bytes n) → Rw α} {r : Except String α} :
    Runs amHandler (Rw.randombuf n >>= f) am r am' ↔
      Runs amHandler (f ((am.draws 0).bytes n)) { am with draws := laterDraws am.draws } r am' := by
  constructor
  · intro hr
    obtain ⟨b, am₁, ho, hr⟩ := runs_op_bind.mp hr
    obtain ⟨rfl, rfl⟩ := Prod.mk.inj (Option.some.inj ho)
    exact hr
  · exact fun hr => runs_op_bind.mpr ⟨_, _, rfl, hr⟩

/-- `mkfilekey` succeeds with the first draw. -/
theorem runs_mkfilekey {filekey : Bytes 16} :
    Runs amHandler mkfilekey am (.ok filekey) am' ↔
      (am.draws 0).bytes 16 = some filekey ∧ am' = { am with draws := laterDraws am.draws } := by
  unfold mkfilekey
  rw [runs_draw]
  rcases (am.draws 0).bytes 16 with _ | b
  · constructor
    · intro hr
      cases (runs_throw.mp hr).1
    · intro ⟨hb, _⟩
      cases hb
  · constructor
    · intro hr
      obtain ⟨hok, ham⟩ := runs_pure.mp hr
      exact ⟨by rw [Except.ok.inj hok], ham⟩
    · intro ⟨hb, ham⟩
      exact runs_pure.mpr ⟨by rw [Option.some.inj hb], ham⟩

variable {C : Crypto} {filekey : Bytes 16} {s : Src}

/-- The header. -/
theorem makehdr_machine {rcpt : Recipients} (hrcpt : rcpt.Costs) (hheld : am.snk.held = [])
    (hr : Runs amHandler (Rw.wr (makehdr C filekey rcpt)) am (.ok ()) am') :
    ∃ d header, HeaderOf C filekey rcpt am.draws header ∧
      Filled am.inp am.snk.isarmor
        (am.snk.sent ++ if am.snk.isarmor then armorfirst else []) am' d header := by
  have hsplit : makehdr C filekey rcpt =
      armorline armorfirst >>= fun _ => hdrlines C filekey rcpt :=
    rfl
  rw [hsplit] at hr
  rcases runs_bind.mp (runs_wr.mp hr) with ⟨e, -, he⟩ | ⟨_, am₁, hline, hr⟩
  · cases he
  obtain ⟨-, rfl⟩ := runs_armorline.mp hline
  have hstart : Filled am.inp am.snk.isarmor
      (am.snk.sent ++ if am.snk.isarmor then armorfirst else [])
      (if am.snk.isarmor then { am with snk := am.snk.writeall armorfirst } else am)
      am.draws [] := by
    split
    · exact ⟨rfl, rfl, rfl, Snk.has_nil (show (am.snk.writeall armorfirst).held = [] from hheld)⟩
    · rw [List.append_nil]
      exact ⟨rfl, rfl, rfl, Snk.has_nil hheld⟩
  obtain ⟨header, d, hheader, hfilled⟩ :=
    (emits_hdrlines (gathers_filled _ _ _) C filekey hrcpt).sound hstart hr
  exact ⟨d, header, hheader, hfilled⟩

/-- The payload and the end of the file. -/
theorem writebody_machine {pre header : List UInt8} (hinp : am.inp = .src s) (hs : s.Probed)
    (hcount : Counts 0 s.rest) (hhas : am.snk.Has pre header)
    (hr : Runs amHandler (writebody C filekey) am (.ok ()) am') :
    ∃ plnonce : Bytes 16, am'.snk.sent = pre ++ (Snk.text am.snk.isarmor
      (header ++ (plnonce.val ++ STREAM C (C.payloadkey filekey plnonce) s.rest)) ++
        if am.snk.isarmor then armorlast else []) := by
  unfold writebody payload at hr
  rcases runs_bind.mp hr with ⟨e, -, he⟩ | ⟨_, am₁, hpayload, hr⟩
  · cases he
  rw [runs_draw] at hpayload
  rcases hdraw : (am.draws 0).bytes 16 with _ | plnonce
  · rw [hdraw] at hpayload
    cases (runs_throw.mp hpayload).1
  rw [hdraw] at hpayload
  obtain ⟨ok, am₂, ho, hpl⟩ := runs_op_bind.mp hpayload
  obtain ⟨rfl, rfl⟩ := Prod.mk.inj (Option.some.inj ho)
  rw [if_pos rfl] at hpl
  have hlong : 35 ≤ CHUNKLEN := by decide
  obtain ⟨s', k', hrun, -, harm, hhas'⟩ := @plencrypt_runs C (C.payloadkey filekey plnonce)
    { am with draws := laterDraws am.draws } s (am.snk.bwrite plnonce.val) pre _
    (fun he => by have := hs he; omega) hcount (hhas.bwrite plnonce.val)
  have hat : { am with draws := laterDraws am.draws, snk := am.snk.bwrite plnonce.val } =
      Am.at { am with draws := laterDraws am.draws } s (am.snk.bwrite plnonce.val) := by
    rw [Am.at, ← hinp]
  obtain ⟨-, rfl⟩ := hpl.unique (by rw [← hat] at hrun; exact hrun)
  obtain ⟨ok, am₃, ho, hr⟩ := runs_op_bind.mp hr
  obtain ⟨rfl, rfl⟩ := Prod.mk.inj (Option.some.inj ho)
  rw [if_pos rfl] at hr
  have hsent : am'.snk.sent = k'.bflush.sent ++ if k'.bflush.isarmor then armorlast else [] :=
    sent_armorline (runs_wr.mp hr)
  refine ⟨plnonce, ?_⟩
  have harm' : k'.isarmor = am.snk.isarmor := harm.trans (Snk.bwrite_isarmor _ _)
  rw [hsent, hhas'.bflush.1, Snk.bflush_isarmor, harm', List.append_assoc, List.append_assoc]

/-- Encryption on the machine. -/
theorem encipher_machine {rcpt : Recipients} (hrcpt : rcpt.Costs) (hinp : am.inp = .src s)
    (hs : s.Probed) (hcount : Counts 0 s.rest) (hheld : am.snk.held = [])
    (hr : Runs amHandler (encipher C rcpt) am (.ok ()) am') :
    ∃ (filekey plnonce : Bytes 16) (header : List UInt8),
      (am.draws 0).bytes 16 = some filekey ∧ HeaderOf C filekey rcpt (laterDraws am.draws) header ∧
      am'.snk.sent = am.snk.sent ++ fileText am.snk.isarmor
        (header ++ (plnonce.val ++ STREAM C (C.payloadkey filekey plnonce) s.rest)) := by
  unfold encipher at hr
  rcases runs_bind.mp hr with ⟨e, -, he⟩ | ⟨filekey, am₁, hkey, hr⟩
  · cases he
  obtain ⟨hdraw, rfl⟩ := runs_mkfilekey.mp hkey
  rcases runs_bind.mp hr with ⟨e, -, he⟩ | ⟨_, am₂, hhdr, hr⟩
  · cases he
  obtain ⟨d, header, hheader, hfilled⟩ := @makehdr_machine { am with draws := laterDraws am.draws }
    am₂ C filekey rcpt hrcpt hheld (runs_rw_wrapped.mp hhdr)
  obtain ⟨plnonce, hsent⟩ := writebody_machine (hfilled.inp.trans hinp) hs hcount hfilled.has
    (runs_rw_wrapped.mp hr)
  refine ⟨filekey, plnonce, header, hdraw, hheader, ?_⟩
  rw [hsent, hfilled.isarmor, fileText, Snk.text]
  by_cases ha : am.snk.isarmor = true
  · simp only [ha, if_true, List.append_assoc]
  · simp [ha]

end

end Agecrypt
