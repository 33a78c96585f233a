import Agecrypt.Agec.Base64Text
import Agecrypt.Agec.Writer

/-!
# What has been written

`Snk.Has k pre raw` says that the output, behind the bytes `pre`, has been
given the bytes `raw`, whatever part of them is still held.  Every `bwrite`
appends to `raw`, and a flush sends the rest: `raw` itself, or its armored
text, in which the blocks of the encoder leave no trace.
-/

namespace Agecrypt

/-- The text that an armored output makes of `raw`. -/
def armorText (raw : List UInt8) : List UInt8 :=
  if raw = [] then [] else base64encode raw true

theorem armorText_nil : armorText [] = [] := rfl

theorem armorText_of_ne {raw : List UInt8} (h : raw ≠ []) :
    armorText raw = base64encode raw true := if_neg h

/-- Full lines are encoded on their own. -/
theorem armorText_append {a : List UInt8} (b : List UInt8) (ha : a.length % 48 = 0) :
    armorText (a ++ b) = armorText a ++ armorText b := by
  by_cases h : a = []
  · simp [h, armorText_nil]
  by_cases hb : b = []
  · simp [hb, armorText_nil]
  · rw [armorText_of_ne h, armorText_of_ne hb, armorText_of_ne (by simp [h]),
      base64encode_append ha h hb]

theorem armorBlocks_spec (fuel : Nat) (raw : List UInt8) :
    ∃ blocks, raw = blocks ++ (armorBlocks fuel raw).2 ∧ blocks.length % IOABUFRAWSIZE = 0 ∧
      (armorBlocks fuel raw).1 = armorText blocks := by
  induction fuel generalizing raw with
  | zero => exact ⟨[], rfl, rfl, rfl⟩
  | succ fuel ih =>
    rcases Nat.lt_or_ge raw.length IOABUFRAWSIZE with hlt | hge
    · exact ⟨[], by rw [armorBlocks_short _ hlt]; rfl, rfl, by rw [armorBlocks_short _ hlt]; rfl⟩
    have hblk : (raw.take IOABUFRAWSIZE).length = IOABUFRAWSIZE := by
      rw [List.length_take]
      omega
    have hne : raw.take IOABUFRAWSIZE ≠ [] := by
      intro h
      rw [h] at hblk
      exact absurd hblk (by decide)
    obtain ⟨blocks, hraw, hmod, htext⟩ := ih (raw.drop IOABUFRAWSIZE)
    have hstep := armorBlocks_block fuel (raw.drop IOABUFRAWSIZE) hblk
    rw [List.take_append_drop] at hstep
    refine ⟨raw.take IOABUFRAWSIZE ++ blocks, ?_, ?_, ?_⟩
    · rw [hstep, List.append_assoc, ← hraw, List.take_append_drop]
    · rw [List.length_append, hblk, Nat.add_mod_left]
      exact hmod
    · rw [hstep, htext, armorText_append _ (by rw [hblk]; rfl), armorText_of_ne hne]

namespace Snk

/-- The output has been given `raw` behind `pre`. -/
def Has (k : Snk) (pre raw : List UInt8) : Prop :=
  if k.isarmor then
    ∃ blocks, raw = blocks ++ k.held ∧ blocks.length % IOABUFRAWSIZE = 0 ∧
      k.sent = pre ++ armorText blocks
  else k.sent ++ k.held = pre ++ raw

/-- What `raw` becomes in the output. -/
def text (isarmor : Bool) (raw : List UInt8) : List UInt8 :=
  if isarmor then armorText raw else raw

/-- An output that has been given nothing. -/
theorem has_nil {k : Snk} (h : k.held = []) : k.Has k.sent [] := by
  unfold Has
  split
  · exact ⟨[], by rw [h]; rfl, rfl, by rw [armorText_nil, List.append_nil]⟩
  · rw [h]

@[simp] theorem bwrite_isarmor (bs : List UInt8) (k : Snk) :
    (k.bwrite bs).isarmor = k.isarmor := by
  unfold bwrite
  simp only
  split
  · rfl
  · split <;> rfl

theorem Has.bwrite {k : Snk} {pre raw : List UInt8} (h : k.Has pre raw) (bs : List UInt8) :
    (k.bwrite bs).Has pre (raw ++ bs) := by
  unfold Has at h ⊢
  rw [bwrite_isarmor]
  by_cases ha : k.isarmor = true
  · rw [if_pos ha] at h ⊢
    obtain ⟨blocks, rfl, hmod, hsent⟩ := h
    obtain ⟨more, hraw, hmod', htext⟩ := armorBlocks_spec (k.held ++ bs).length (k.held ++ bs)
    have h48 : blocks.length % 48 = 0 := by
      rw [IOABUFRAWSIZE] at hmod
      omega
    refine ⟨blocks ++ more, ?_, ?_, ?_⟩
    · rw [Snk.bwrite, if_pos ha, List.append_assoc, List.append_assoc, ← hraw]
    · rw [List.length_append, Nat.add_mod, hmod, hmod']
      rfl
    · rw [Snk.bwrite, if_pos ha]
      simp only
      rw [hsent, htext, armorText_append _ h48, List.append_assoc]
  · rw [if_neg ha] at h ⊢
    rw [Snk.bwrite, if_neg ha]
    split
    · rw [← List.append_assoc, h, List.append_assoc]
    · rw [List.append_nil, ← List.append_assoc, h, List.append_assoc]

@[simp] theorem bflush_isarmor (k : Snk) : k.bflush.isarmor = k.isarmor := rfl

/-- A flush sends all that the output has been given. -/
theorem Has.bflush {k : Snk} {pre raw : List UInt8} (h : k.Has pre raw) :
    k.bflush.sent = pre ++ text k.isarmor raw ∧ k.bflush.held = [] := by
  refine ⟨?_, rfl⟩
  unfold Has at h
  rw [Snk.bflush, Snk.flushed, text]
  by_cases ha : k.isarmor = true
  · rw [if_pos ha] at h
    obtain ⟨blocks, rfl, hmod, hsent⟩ := h
    have h48 : blocks.length % 48 = 0 := by
      rw [IOABUFRAWSIZE] at hmod
      omega
    rw [if_pos ha, if_pos ha, armorText_append _ h48, hsent, armorText, List.append_assoc,
      ← armorText]
    rfl
  · rw [if_neg ha] at h
    rw [if_neg ha, if_neg ha]
    simp only
    rw [← h]
    split
    · rename_i hnil
      rw [hnil]
    · rfl

end Snk

end Agecrypt
