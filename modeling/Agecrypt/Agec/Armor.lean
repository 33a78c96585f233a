import Agecrypt.Agec.Base64Text
import Agecrypt.Agec.Io

/-!
# Armored text

`aread` takes the text behind the armor header line in blocks of 8190
characters, looks for the ending line at the end of each block with
`endcheck`, and decodes what stands before it.  `unarmor` is the result for a
whole text: the bytes of the blocks that decode, and whether the ending line
has been found at the end of the input.

`endcheck` never answers that a block ends in a part of the ending line
(`endcheck_partial`): a line that does not lie in one block is not found.
-/

namespace Agecrypt

theorem length_armorfirst : armorfirst.length = 35 := by decide

theorem length_armorlast : armorlast.length = 33 := by decide

/-! ## `endcheck` -/

/-- The comparison of the rest `q` of the ending line at position `p`, when
the block is long enough for it. -/
private theorem endcheckLoop_spec (byteAt : Int → UInt8) (len : Int) (q : List UInt8) :
    ∀ (p : Int) (e : Nat), p + q.length ≤ len →
      (endcheckLoop byteAt len q p e = (1, e + q.length) ∧ p + q.length = len ∧
        ∀ i (hi : i < q.length), byteAt (p + i) = q[i]) ∨
      (∃ k, k ≤ q.length ∧ endcheckLoop byteAt len q p e = (-1, e + k) ∧
        ((∃ i, ∃ hi : i < q.length, byteAt (p + i) ≠ q[i]) ∨ p + q.length ≠ len)) := by
  induction q with
  | nil =>
    intro p e hp
    simp only [List.length_nil] at hp
    by_cases h : p = len
    · exact .inl ⟨by simp [endcheckLoop, h], by simpa using h, by simp⟩
    · refine .inr ⟨0, by simp, ?_, .inr (by simpa using h)⟩
      have hle : p ≤ len := by omega
      simp [endcheckLoop, h, hle]
  | cons c q ih =>
    intro p e hp
    simp only [List.length_cons] at hp
    have hle : p ≤ len := by omega
    by_cases hc : byteAt p = c
    · rcases ih (p + 1) (e + 1) (by omega) with ⟨h, hlen, hall⟩ | ⟨k, hk, h, hbad⟩
      · refine .inl ⟨?_, by simp only [List.length_cons]; omega, ?_⟩
        · simp [endcheckLoop, hle, hc, h]
          omega
        · intro i hi
          rcases i with _ | i
          · simpa using hc
          · have := hall i (by simpa using hi)
            simp only [List.getElem_cons_succ]
            rw [← this]
            congr 1
            omega
      · refine .inr ⟨k + 1, by simp only [List.length_cons]; omega, ?_, ?_⟩
        · simp [endcheckLoop, hle, hc, h]
          omega
        · rcases hbad with ⟨i, hi, hb⟩ | hlen
          · refine .inl ⟨i + 1, by simpa using hi, ?_⟩
            simp only [List.getElem_cons_succ]
            rw [show p + ((i + 1 : Nat) : Int) = p + 1 + i by omega]
            exact hb
          · exact .inr (by simp only [List.length_cons]; omega)
    · exact .inr ⟨0, by simp, by simp [endcheckLoop, hle, hc], .inl ⟨0, by simp, by simpa using hc⟩⟩

/-- The bytes of a block, as `endcheck` sees them. -/
private theorem byteAt_block (outside : Int → UInt8) (body tail : List UInt8) (i : Nat)
    (hi : i < tail.length) :
    (if (0 : Int) ≤ (body.length : Int) + i then
        (((body ++ tail)[((body.length : Int) + i).toNat]?).getD
          (outside ((body.length : Int) + i)))
      else outside ((body.length : Int) + i)) = tail[i] := by
  rw [if_pos (by omega), show ((body.length : Int) + i).toNat = body.length + i by omega,
    List.getElem?_append_right (by omega)]
  simp [hi]

/-- `endcheck` on a block that no part of the ending line precedes. -/
theorem endcheck_zero (outside : Int → UInt8) (blk : List UInt8) :
    (∃ body, blk = body ++ armorlast ∧ endcheck outside blk 0 = (1, armorlast.length)) ∨
    (¬ armorlast <:+ blk ∧
      ((armorlast.length ≤ blk.length ∧
          (blk.drop (blk.length - armorlast.length)).head? ≠ some 45 ∧
          endcheck outside blk 0 = (0, 0)) ∨
        ∃ k, k ≤ armorlast.length ∧ endcheck outside blk 0 = (-1, k) ∧
          (armorlast.length ≤ blk.length →
            (blk.drop (blk.length - armorlast.length)).head? = some 45))) := by
  rcases Nat.lt_or_ge blk.length armorlast.length with hlt | hge
  · refine .inr ⟨fun hs => ?_, .inr ⟨0, by omega, ?_, by omega⟩⟩
    · have := hs.length_le
      omega
    · rw [endcheck]
      simp only
      rw [if_pos ⟨by omega, by omega⟩]
  obtain ⟨body, tail, rfl, htail⟩ : ∃ body tail, blk = body ++ tail ∧
      tail.length = armorlast.length :=
    ⟨blk.take (blk.length - armorlast.length), blk.drop (blk.length - armorlast.length),
      (List.take_append_drop _ _).symm, by rw [List.length_drop]; omega⟩
  have hdrop : (body ++ tail).drop ((body ++ tail).length - armorlast.length) = tail := by
    rw [List.length_append, htail, Nat.add_sub_cancel, List.drop_left]
  have hsuffix : armorlast <:+ body ++ tail ↔ tail = armorlast := by
    rw [List.suffix_iff_eq_drop, hdrop]
    exact eq_comm
  rw [hdrop, hsuffix]
  have h33 := length_armorlast
  have hstart : (((body ++ tail).length : Nat) : Int) - (0 : Nat) - (armorlast.length : Nat) =
      (body.length : Int) := by
    rw [List.length_append]
    omega
  have hbyte : ∀ i (hi : i < tail.length),
      (if (0 : Int) ≤ (body.length : Int) + i then
        (((body ++ tail)[((body.length : Int) + i).toNat]?).getD
          (outside ((body.length : Int) + i)))
      else outside ((body.length : Int) + i)) = tail[i] :=
    fun i hi => byteAt_block outside body tail i hi
  have h0 := hbyte 0 (by omega)
  simp only [Nat.cast_zero, add_zero] at h0
  have hfirst : (armorlast ++ [0]).getD 0 0 = 45 := by decide
  have hhead : tail.head? = some tail[0] := by
    rw [List.head?_eq_getElem?, List.getElem?_eq_getElem (by omega)]
  rw [endcheck]
  simp only
  rw [if_neg (by omega), hstart, h0, hfirst, hhead]
  by_cases hc : tail[0] = 45
  · rw [if_neg (by simp [hc])]
    rcases endcheckLoop_spec (fun p => if 0 ≤ p then ((body ++ tail)[p.toNat]?).getD (outside p)
        else outside p) ((body ++ tail).length : Int) armorlast (body.length : Int) 0
        (by rw [List.length_append]; omega) with ⟨h, -, hall⟩ | ⟨k, hk, h, hbad⟩
    · have heq : tail = armorlast := by
        refine List.ext_getElem htail ?_
        intro i hi hi'
        rw [← hall i hi', ← hbyte i hi]
      exact .inl ⟨body, by rw [heq], by simpa using h⟩
    · refine .inr ⟨?_, .inr ⟨k, hk, by simpa using h, fun _ => by rw [hc]⟩⟩
      rintro rfl
      rcases hbad with ⟨i, hi, hb⟩ | hlen
      · exact hb (hbyte i hi)
      · rw [List.length_append] at hlen
        omega
  · rw [if_pos (by simpa using hc)]
    refine .inr ⟨?_, .inl ⟨hge, by simpa using hc, rfl⟩⟩
    rintro rfl
    exact hc rfl

/-- Behind a part of the ending line no block is accepted, whatever lies in
front of the block in memory. -/
theorem endcheck_pos (outside : Int → UInt8) (blk : List UInt8) {e : Nat} (he : 0 < e)
    (he33 : e ≤ armorlast.length) :
    ∃ k, k ≤ armorlast.length ∧ endcheck outside blk e = (-1, k) := by
  have h33 := length_armorlast
  rw [endcheck]
  simp only
  split
  · exact ⟨e, he33, rfl⟩
  rw [if_neg (by omega)]
  have hq : (armorlast.drop e).length = armorlast.length - e := List.length_drop
  rcases endcheckLoop_spec (fun p => if 0 ≤ p then ((blk)[p.toNat]?).getD (outside p)
      else outside p) (blk.length : Int) (armorlast.drop e)
      ((blk.length : Int) - e - armorlast.length) e (by rw [hq]; omega) with
    ⟨-, hlen, -⟩ | ⟨k, hk, h, -⟩
  · rw [hq] at hlen
    omega
  · exact ⟨e + k, by omega, h⟩

/-- `endcheck` never reports a part of the ending line. -/
theorem endcheck_partial (outside : Int → UInt8) (blk : List UInt8) {e : Nat}
    (he : e ≤ armorlast.length) :
    ¬ ((endcheck outside blk e).1 = 0 ∧ (endcheck outside blk e).2 > 0) := by
  rintro ⟨h0, hpos⟩
  rcases Nat.eq_zero_or_pos e with rfl | hp
  · rcases endcheck_zero outside blk with ⟨-, -, h⟩ | ⟨-, ⟨-, -, h⟩ | ⟨k, -, h, -⟩⟩
    · simp [h] at h0
    · simp [h] at hpos
    · simp [h] at h0
  · obtain ⟨k, -, h⟩ := endcheck_pos outside blk hp he
    simp [h] at h0

theorem endcheck_le (outside : Int → UInt8) (blk : List UInt8) {e : Nat}
    (he : e ≤ armorlast.length) :
    (endcheck outside blk e).2 ≤ armorlast.length := by
  rcases Nat.eq_zero_or_pos e with rfl | hp
  · rcases endcheck_zero outside blk with ⟨-, -, h⟩ | ⟨-, ⟨-, -, h⟩ | ⟨k, hk, h, -⟩⟩
    · simp [h]
    · simp [h]
    · simpa [h] using hk
  · obtain ⟨k, hk, h⟩ := endcheck_pos outside blk hp he
    simpa [h] using hk

/-! ## The bytes of an armored text -/

/-- What one block decodes to, and whether it ends in the ending line;
`more` says whether input follows it. -/
def decodeBlock (blk : List UInt8) (more : Bool) : Option (List UInt8 × Bool) :=
  match endcheck (fun _ => 0) blk 0 with
  | (1, endpos) =>
    if more then none
    else (base64decode (blk.take (blk.length - endpos)) true).map (fun out => (out, true))
  | (0, _) => (base64decode blk true).map (fun out => (out, false))
  | _ => none

/-- A block in front of the blocks that give `next`. -/
def blockThen (blk : Option (List UInt8 × Bool)) (next : List UInt8 × Bool) :
    List UInt8 × Bool :=
  match blk with
  | none => ([], false)
  | some (out, true) => (out, true)
  | some (out, false) => (out ++ next.1, next.2)

/-- `unarmor`, for texts shorter than the bound. -/
def unarmorLoop : Nat → List UInt8 → List UInt8 × Bool
  | 0, _ => ([], false)
  | fuel + 1, text =>
    if text = [] then ([], false)
    else
      blockThen (decodeBlock (text.take IOABUFREADSIZE) (!(text.drop IOABUFREADSIZE).isEmpty))
        (unarmorLoop fuel (text.drop IOABUFREADSIZE))

/-- The bytes of the leading blocks that decode, and whether the text is
accepted as a whole. -/
def unarmor (text : List UInt8) : List UInt8 × Bool := unarmorLoop (text.length + 1) text

private theorem unarmorLoop_eq (n : Nat) : ∀ (m : Nat) (text : List UInt8),
    text.length < n → text.length < m → unarmorLoop n text = unarmorLoop m text := by
  induction n with
  | zero => intro m text h; omega
  | succ n ih =>
    intro m text hn hm
    obtain ⟨m, rfl⟩ : ∃ m', m = m' + 1 := ⟨m - 1, by omega⟩
    rw [unarmorLoop, unarmorLoop]
    by_cases h : text = []
    · rw [if_pos h, if_pos h]
    · have hpos : text.length ≠ 0 := fun h0 => h (List.length_eq_zero_iff.mp h0)
      have hd : (text.drop IOABUFREADSIZE).length = text.length - 65 * 126 := by
        rw [List.length_drop, IOABUFREADSIZE]
      rw [if_neg h, if_neg h, ih m _ (by omega) (by omega)]

theorem length_decodeBlock {blk out : List UInt8} {more last : Bool}
    (h : decodeBlock blk more = some (out, last)) : out.length ≤ blk.length := by
  have hdec : ∀ (txt : List UInt8) (b : Bool), txt.length ≤ blk.length →
      (base64decode txt true).map (fun out => (out, b)) = some (out, last) →
      out.length ≤ blk.length := by
    intro txt b hle hmap
    obtain ⟨o, ho, he⟩ := Option.map_eq_some_iff.mp hmap
    obtain ⟨rfl, -⟩ := Prod.mk.inj he
    exact (length_base64decode ho).trans hle
  unfold decodeBlock at h
  split at h
  · split at h
    · cases h
    · exact hdec _ _ (by rw [List.length_take]; omega) h
  · exact hdec _ _ (Nat.le_refl _) h
  · cases h

/-- A block without the ending line holds at least one byte. -/
theorem decodeBlock_ne_nil {blk out : List UInt8} {more : Bool}
    (h : decodeBlock blk more = some (out, false)) : out ≠ [] := by
  unfold decodeBlock at h
  rcases endcheck_zero (fun _ => 0) blk with ⟨body, -, he⟩ | ⟨-, ⟨hlen, -, he⟩ | ⟨k, -, he, -⟩⟩
  · rw [he] at h
    cases more <;> simp at h
  · rw [he] at h
    obtain ⟨o, ho, hout⟩ := Option.map_eq_some_iff.mp h
    obtain ⟨rfl, -⟩ := Prod.mk.inj hout
    rw [length_armorlast] at hlen
    exact base64decode_ne_nil ho (by omega)
  · rw [he] at h
    cases h

theorem unarmor_nil : unarmor [] = ([], false) := rfl

/-- The first block of a text, and the rest. -/
theorem unarmor_block {text : List UInt8} (h : text ≠ []) :
    unarmor text =
      blockThen (decodeBlock (text.take IOABUFREADSIZE) (!(text.drop IOABUFREADSIZE).isEmpty))
        (unarmor (text.drop IOABUFREADSIZE)) := by
  have hpos : text.length ≠ 0 := fun h0 => h (List.length_eq_zero_iff.mp h0)
  have hd : (text.drop IOABUFREADSIZE).length = text.length - 65 * 126 := by
    rw [List.length_drop, IOABUFREADSIZE]
  have hfuel := unarmorLoop_eq text.length ((text.drop IOABUFREADSIZE).length + 1)
    (text.drop IOABUFREADSIZE) (by omega) (by omega)
  rw [unarmor, unarmorLoop, if_neg h, unarmor, hfuel]

end Agecrypt
