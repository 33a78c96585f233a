import Agecrypt.Agec.Base64
import Mathlib.Tactic.IntervalCases

/-!
# Base64 text

`b64Text` is the text of a byte string, group by group: three bytes are four
characters, a line has sixteen groups, and the last group may be partial.
The encoder writes it (`base64encode_eq`) and the decoder reads it back
(`base64decode_encode`).

In the other direction the decoder is not exact: it does not look at the
last character behind a padding, at a newline alone in a line, or at a lone
character whose predecessor left no bits over.  `base64encode_decode` says
that these are the only texts that it accepts besides the encoder's.
-/

namespace Agecrypt

/-! ## The alphabet -/

/-- A character that stands for six bits. -/
def sextet (c : UInt8) : Bool :=
  !(c == PAD || c < DFIRST || c > DLAST || dtableAt c == 0x80)

theorem forall_byte {p : UInt8 → Prop} (h : ∀ n : Fin 256, p (UInt8.ofNat n.val))
    (c : UInt8) : p c := by
  have hc := h ⟨c.toNat, c.toNat_lt⟩
  simpa using hc

theorem dtableAt_etableAt (v : UInt8) : v < 64 → dtableAt (etableAt v) = v :=
  forall_byte (p := fun v => v < 64 → dtableAt (etableAt v) = v) (by decide +kernel) v

theorem sextet_etableAt (v : UInt8) : v < 64 → sextet (etableAt v) = true :=
  forall_byte (p := fun v => v < 64 → sextet (etableAt v) = true) (by decide +kernel) v

theorem etableAt_dtableAt (c : UInt8) :
    sextet c = true → etableAt (dtableAt c) = c ∧ dtableAt c < 64 :=
  forall_byte
    (p := fun c => sextet c = true → etableAt (dtableAt c) = c ∧ dtableAt c < 64)
    (by decide +kernel) c

/-! ## The bits of a group -/

def sext0 (a : UInt8) : UInt8 := (a >>> 2) &&& 0x3f
def sext1 (a b : UInt8) : UInt8 := ((a &&& 0x3) <<< 4) ||| ((b >>> 4) &&& 0xf)
def sext2 (b c : UInt8) : UInt8 := ((b &&& 0xf) <<< 2) ||| ((c >>> 6) &&& 0x3)
def sext3 (c : UInt8) : UInt8 := c &&& 0x3f

def byte0 (v w : UInt8) : UInt8 := v <<< 2 ||| ((w >>> 4) &&& 0x3)
def byte1 (w x : UInt8) : UInt8 := (w &&& 0xf) <<< 4 ||| ((x >>> 2) &&& 0xf)
def byte2 (x y : UInt8) : UInt8 := (x &&& 0x3) <<< 6 ||| y

theorem byte_ext {x y : UInt8} (h : ∀ i, i < 8 → x.toBitVec.getLsbD i = y.toBitVec.getLsbD i) :
    x = y :=
  UInt8.toBitVec_inj.mp (BitVec.eq_of_getLsbD_eq h)

theorem and_3f_of_lt (v : UInt8) : v < 64 → v &&& 0x3f = v :=
  forall_byte (p := fun v => v < 64 → v &&& 0x3f = v) (by decide +kernel) v

theorem and_3f_lt (v : UInt8) : v &&& 0x3f < 64 :=
  forall_byte (p := fun v => v &&& 0x3f < 64) (by decide +kernel) v

theorem lt_of_and_3f {v : UInt8} (h : v &&& 0x3f = v) : v < 64 := h ▸ and_3f_lt v

theorem sext0_lt (a : UInt8) : sext0 a < 64 := and_3f_lt _

theorem sext3_lt (c : UInt8) : sext3 c < 64 := and_3f_lt c

theorem sext1_lt (a b : UInt8) : sext1 a b < 64 := by
  apply lt_of_and_3f
  apply byte_ext
  intro i hi
  interval_cases i <;> simp [sext1]

theorem sext2_lt (b c : UInt8) : sext2 b c < 64 := by
  apply lt_of_and_3f
  apply byte_ext
  intro i hi
  interval_cases i <;> simp [sext2]

theorem byte0_sext (a b : UInt8) : byte0 (sext0 a) (sext1 a b) = a := by
  apply byte_ext
  intro i hi
  interval_cases i <;> simp [byte0, sext0, sext1]

theorem byte1_sext (a b c : UInt8) : byte1 (sext1 a b) (sext2 b c) = b := by
  apply byte_ext
  intro i hi
  interval_cases i <;> simp [byte1, sext1, sext2]

theorem byte2_sext (b c : UInt8) : byte2 (sext2 b c) (sext3 c) = c := by
  apply byte_ext
  intro i hi
  interval_cases i <;> simp [byte2, sext2, sext3]

private theorem sext0_byte_and (v w : UInt8) :
    sext0 (byte0 v w) = v &&& 0x3f := by
  apply byte_ext
  intro i hi
  interval_cases i <;> simp [sext0, byte0]

private theorem sext1_byte_and (v w x : UInt8) :
    sext1 (byte0 v w) (byte1 w x) = w &&& 0x3f := by
  apply byte_ext
  intro i hi
  interval_cases i <;> simp [sext1, byte0, byte1]

private theorem sext2_byte_and (w x y : UInt8) (hy : y < 64) :
    sext2 (byte1 w x) (byte2 x y) = x &&& 0x3f := by
  rw [← and_3f_of_lt y hy]
  apply byte_ext
  intro i hi
  interval_cases i <;> simp [sext2, byte1, byte2]

private theorem sext3_byte_and (x y : UInt8) : sext3 (byte2 x y) = y &&& 0x3f := by
  apply byte_ext
  intro i hi
  interval_cases i <;> simp [sext3, byte2]

theorem sext0_byte {v : UInt8} (w : UInt8) (hv : v < 64) : sext0 (byte0 v w) = v := by
  rw [sext0_byte_and, and_3f_of_lt v hv]

theorem sext1_byte {w : UInt8} (v x : UInt8) (hw : w < 64) :
    sext1 (byte0 v w) (byte1 w x) = w := by
  rw [sext1_byte_and, and_3f_of_lt w hw]

theorem sext2_byte {x y : UInt8} (w : UInt8) (hx : x < 64) (hy : y < 64) :
    sext2 (byte1 w x) (byte2 x y) = x := by
  rw [sext2_byte_and w x y hy, and_3f_of_lt x hx]

theorem sext3_byte {y : UInt8} (x : UInt8) (hy : y < 64) : sext3 (byte2 x y) = y := by
  rw [sext3_byte_and, and_3f_of_lt y hy]

/-- A group of two characters whose leftover bits are zero. -/
theorem sext1_byte_last {w : UInt8} (v : UInt8) (hw : w < 64)
    (hz : (w &&& 0xf) <<< 4 = 0) : sext1 (byte0 v w) 0 = w := by
  have h : sext1 (byte0 v w) (byte1 w 0) = w := sext1_byte v 0 hw
  rwa [byte1, hz] at h

/-- A group of three characters whose leftover bits are zero. -/
theorem sext2_byte_last {x : UInt8} (w : UInt8) (hx : x < 64)
    (hz : (x &&& 0x3) <<< 6 = 0) : sext2 (byte1 w x) 0 = x := by
  have h : sext2 (byte1 w x) (byte2 x 0) = x := sext2_byte w hx (by decide)
  rwa [byte2, hz] at h

/-! ## The text -/

/-- The end of a full line, `g` groups into the line. -/
def lineBreak (pad : Bool) (g : Nat) : List UInt8 := if pad ∧ g = 16 then [NL] else []

/-- The column behind `lineBreak`. -/
def columnOf (pad : Bool) (g : Nat) : Nat := if pad ∧ g = 16 then 0 else g

/-- The text of a byte string whose first character stands `g` groups into
its line: in lines of 64 characters, padded and ended by a newline when
`pad` is set, and as one run otherwise. -/
def b64Text (pad : Bool) (g : Nat) : List UInt8 → List UInt8
  | [] => if pad then [NL] else []
  | [a] =>
    lineBreak pad g ++ [etableAt (sext0 a), etableAt (sext1 a 0)] ++
      if pad then [PAD, PAD, NL] else []
  | [a, b] =>
    lineBreak pad g ++ [etableAt (sext0 a), etableAt (sext1 a b), etableAt (sext2 b 0)] ++
      if pad then [PAD, NL] else []
  | a :: b :: c :: cs =>
    lineBreak pad g ++ [etableAt (sext0 a), etableAt (sext1 a b), etableAt (sext2 b c),
      etableAt (sext3 c)] ++ b64Text pad (columnOf pad g + 1) cs

theorem b64Text_ne_nil (g : Nat) (d : List UInt8) : b64Text true g d ≠ [] := by
  rcases d with _ | ⟨a, _ | ⟨b, _ | ⟨c, cs⟩⟩⟩ <;> simp [b64Text]

/-! ## The encoder writes the text -/

private theorem sext1_zero (l : UInt8) : (l &&& 0x3) <<< 4 = sext1 l 0 := by
  simp [sext1]

private theorem sext2_zero (l : UInt8) : (l &&& 0xf) <<< 2 = sext2 l 0 := by
  simp [sext2]

/-- The column of a position inside a group, or behind the last group of a
line. -/
theorem column_mod (k : Nat) {q : Nat} (hq : q < 65) : (65 * k + q) % 65 = q := by
  rw [Nat.mul_add_mod, Nat.mod_eq_of_lt hq]

/-- The number of characters before the first one of a group, behind the
end of a line. -/
private def AtGroup (pad : Bool) (g j : Nat) : Prop :=
  pad = true → g ≤ 15 ∧ ∃ k, j = 65 * k + 4 * g

private theorem encodeLoop_first {pad : Bool} {g j : Nat} (a l : UInt8) (cs : List UInt8)
    (hg : pad = true → g ≤ 16 ∧ ∃ k, j = 65 * k + 4 * g) :
    ∃ j', AtGroup pad (columnOf pad g) j' ∧
      encodeLoop pad (a :: cs) 0 l j =
        lineBreak pad g ++ etableAt (sext0 a) :: encodeLoop pad cs 1 a (j' + 1) := by
  cases pad with
  | false => exact ⟨j, by simp [AtGroup], by simp [encodeLoop, lineBreak, sext0]⟩
  | true =>
    obtain ⟨hg, k, hj⟩ := hg rfl
    by_cases h16 : g = 16
    · refine ⟨65 * (k + 1), fun _ => ⟨by simp [columnOf, h16], k + 1, by simp [columnOf, h16]⟩, ?_⟩
      have hpos : 0 < j := by omega
      have hj' : j + 1 = 65 * (k + 1) := by omega
      simp [encodeLoop, lineBreak, sext0, h16, LINELEN, hpos, hj']
    · refine ⟨j, fun _ => ⟨by simp [columnOf, h16]; omega, k, by simp [columnOf, h16, hj]⟩, ?_⟩
      have hne : (j + 1) % 65 ≠ 0 := by
        have hc := column_mod k (q := 4 * g + 1) (by omega)
        rw [hj, Nat.add_assoc, hc]
        omega
      simp [encodeLoop, lineBreak, sext0, h16, LINELEN, hne]

private theorem encodeLoop_second {pad : Bool} {g j : Nat} (hg : AtGroup pad g j)
    (b l : UInt8) (cs : List UInt8) :
    encodeLoop pad (b :: cs) 1 l (j + 1) =
      etableAt (sext1 l b) :: encodeLoop pad cs 2 b (j + 2) := by
  cases pad with
  | false => simp [encodeLoop, sext1]
  | true =>
    obtain ⟨hg, k, hj⟩ := hg rfl
    have hc := column_mod k (q := 4 * g + 2) (by omega)
    have hne : (j + 1 + 1) % 65 = 4 * g + 2 := by
      rw [← hc, hj, Nat.add_assoc, Nat.add_assoc]
    simp [encodeLoop, sext1, LINELEN, hne]

private theorem encodeLoop_third {pad : Bool} {g j : Nat} (hg : AtGroup pad g j)
    (c l : UInt8) (cs : List UInt8) :
    encodeLoop pad (c :: cs) 2 l (j + 2) =
      etableAt (sext2 l c) :: etableAt (sext3 c) :: encodeLoop pad cs 0 c (j + 4) := by
  cases pad with
  | false => simp [encodeLoop, sext2, sext3]
  | true =>
    obtain ⟨hg, k, hj⟩ := hg rfl
    have hc := column_mod k (q := 4 * g + 3) (by omega)
    have hne : (j + 2 + 1) % 65 = 4 * g + 3 := by
      rw [← hc, hj, Nat.add_assoc, Nat.add_assoc]
    simp [encodeLoop, sext2, sext3, LINELEN, hne]

/-- The encoder at the start of a group. -/
private theorem encodeLoop_eq (pad : Bool) (g : Nat) (d : List UInt8) (l : UInt8) (j : Nat)
    (hg : pad = true → g ≤ 16 ∧ ∃ k, j = 65 * k + 4 * g) :
    encodeLoop pad d 0 l j = b64Text pad g d := by
  induction g, d using b64Text.induct pad generalizing l j with
  | case1 g hp => simp [encodeLoop, encodeTail, b64Text, hp]
  | case2 g hp => simp [encodeLoop, encodeTail, b64Text, hp]
  | case3 g a =>
    obtain ⟨j', hj', h⟩ := encodeLoop_first a l [] hg
    rw [h]
    cases pad <;> simp [encodeLoop, encodeTail, b64Text, sext1_zero]
  | case4 g a b =>
    obtain ⟨j', hj', h⟩ := encodeLoop_first a l [b] hg
    rw [h, encodeLoop_second hj']
    cases pad <;> simp [encodeLoop, encodeTail, b64Text, sext2_zero]
  | case5 g a b c cs ih =>
    obtain ⟨j', hj', h⟩ := encodeLoop_first a l (b :: c :: cs) hg
    rw [h, encodeLoop_second hj', encodeLoop_third hj', b64Text, ih c (j' + 4)]
    · simp
    · intro hp
      obtain ⟨hg', k, hk⟩ := hj' hp
      exact ⟨by omega, k, by omega⟩

theorem base64encode_eq (pad : Bool) (d : List UInt8) :
    base64encode d pad = b64Text pad 0 d :=
  encodeLoop_eq pad 0 d 0 0 (fun _ => ⟨by omega, 0, by omega⟩)

/-! ## The decoder reads the text -/

section Decode

variable {pad : Bool} {lastlen inlen : Nat}

private theorem decodeLoop_data {x : UInt8} {xs : List UInt8} {st : DecState}
    (hcol : ¬ (pad ∧ st.i > 0 ∧ (st.i + 1) % (LINELEN + 1) = 0)) (hx : sextet x = true) :
    decodeLoop pad lastlen inlen (x :: xs) st =
      decodeLoop pad lastlen inlen xs (decodeChar (dtableAt x) st) := by
  simp only [sextet, Bool.not_eq_true', Bool.or_eq_false_iff, beq_eq_false_iff_ne,
    decide_eq_false_iff_not] at hx
  obtain ⟨⟨⟨hpad, hlo⟩, hhi⟩, htab⟩ := hx
  rw [decodeLoop, if_neg hcol, if_neg hpad, if_neg (not_or.mpr ⟨hlo, hhi⟩), if_neg htab]

private theorem decodeLoop_newline {xs : List UInt8} {st : DecState}
    (hcol : pad ∧ st.i > 0 ∧ (st.i + 1) % (LINELEN + 1) = 0) :
    decodeLoop pad lastlen inlen (NL :: xs) st =
      decodeLoop pad lastlen inlen xs { st with i := st.i + 1, line := st.line + 1 } := by
  rw [decodeLoop, if_pos hcol, if_neg (by simp)]

/-- Where the decoder stops. -/
private theorem decodeLoop_stop {x : UInt8} {xs : List UInt8} {st : DecState}
    {r : DecState × List UInt8}
    (hcol : ¬ (pad ∧ st.i > 0 ∧ (st.i + 1) % (LINELEN + 1) = 0)) (hx : sextet x = false)
    (h : decodeLoop pad lastlen inlen (x :: xs) st = some r) :
    r = (st, x :: xs) ∧ pad = true ∧ x = PAD ∨
      r = (st, x :: xs) ∧ lastlen ≠ 0 ∧ st.i + 1 = inlen ∧ x = NL := by
  rw [decodeLoop, if_neg hcol] at h
  split at h
  · rename_i hp
    cases pad with
    | false => simp at h
    | true => exact .inl ⟨by simpa using h.symm, rfl, hp⟩
  · rename_i hp
    split at h
    · split at h
      · rename_i hl
        exact .inr ⟨by simpa using h.symm, hl⟩
      · cases h
    · rename_i hr
      split at h
      · cases h
      · rename_i ht
        simp only [sextet, Bool.not_eq_false', Bool.or_eq_true, beq_iff_eq, decide_eq_true_eq] at hx
        tauto

/-- The decoder stands at a character of group `g` of line `line`. -/
private structure AtCol (pad : Bool) (line g i : Nat) : Prop where
  pos : i = 65 * line + 4 * g
  full : pad = true → g ≤ 15
  flat : pad = false → line = 0

private theorem AtCol.inside {line g i : Nat} (h : AtCol pad line g i) {k : Nat} (hk : k < 4) :
    ¬ (pad ∧ i + k > 0 ∧ (i + k + 1) % (LINELEN + 1) = 0) := by
  rintro ⟨hp, -, hm⟩
  have hg := h.full hp
  have hc := column_mod line (q := 4 * g + k + 1) (by omega)
  have he : i + k + 1 = 65 * line + (4 * g + k + 1) := by
    have := h.pos
    omega
  rw [LINELEN, he, hc] at hm
  omega

private theorem AtCol.mod {line g i : Nat} (h : AtCol pad line g i) {k : Nat} (hk : k < 4) :
    (i + k - line) % 4 = k := by
  have := h.pos
  omega

variable {line g i : Nat} {cur next : UInt8} {out : List UInt8}

private theorem decode_one (hcol : AtCol pad line g i) {c : UInt8} (xs : List UInt8)
    (hc : sextet c = true) :
    decodeLoop pad lastlen inlen (c :: xs) ⟨i, line, cur, next, out⟩ =
      decodeLoop pad lastlen inlen xs ⟨i + 1, line, dtableAt c <<< 2, next, out⟩ := by
  have h0 := hcol.mod (k := 0) (by omega)
  rw [decodeLoop_data (hcol.inside (k := 0) (by omega)) hc, decodeChar]
  simp only [Nat.add_zero] at h0
  simp only [h0]

private theorem decode_two (hcol : AtCol pad line g i) {c w : UInt8} (xs : List UInt8)
    (hc : sextet c = true) (hw : sextet w = true) :
    decodeLoop pad lastlen inlen (c :: w :: xs) ⟨i, line, cur, next, out⟩ =
      decodeLoop pad lastlen inlen xs
        ⟨i + 2, line, dtableAt c <<< 2, (dtableAt w &&& 0xf) <<< 4,
          out ++ [byte0 (dtableAt c) (dtableAt w)]⟩ := by
  have h1 := hcol.mod (k := 1) (by omega)
  rw [decode_one hcol _ hc, decodeLoop_data (hcol.inside (k := 1) (by omega)) hw, decodeChar]
  simp only [h1, byte0]

private theorem decode_three (hcol : AtCol pad line g i) {c w x : UInt8} (xs : List UInt8)
    (hc : sextet c = true) (hw : sextet w = true) (hx : sextet x = true) :
    decodeLoop pad lastlen inlen (c :: w :: x :: xs) ⟨i, line, cur, next, out⟩ =
      decodeLoop pad lastlen inlen xs
        ⟨i + 3, line, dtableAt c <<< 2, (dtableAt x &&& 0x3) <<< 6,
          out ++ [byte0 (dtableAt c) (dtableAt w), byte1 (dtableAt w) (dtableAt x)]⟩ := by
  have h2 := hcol.mod (k := 2) (by omega)
  rw [decode_two hcol _ hc hw, decodeLoop_data (hcol.inside (k := 2) (by omega)) hx, decodeChar]
  simp only [h2, byte1, List.append_assoc, List.cons_append, List.nil_append]

private theorem decode_four (hcol : AtCol pad line g i) {c w x y : UInt8} (xs : List UInt8)
    (hc : sextet c = true) (hw : sextet w = true) (hx : sextet x = true)
    (hy : sextet y = true) :
    decodeLoop pad lastlen inlen (c :: w :: x :: y :: xs) ⟨i, line, cur, next, out⟩ =
      decodeLoop pad lastlen inlen xs
        ⟨i + 4, line, dtableAt c <<< 2, (dtableAt x &&& 0x3) <<< 6,
          out ++ [byte0 (dtableAt c) (dtableAt w), byte1 (dtableAt w) (dtableAt x),
            byte2 (dtableAt x) (dtableAt y)]⟩ := by
  have h3 := hcol.mod (k := 3) (by omega)
  rw [decode_three hcol _ hc hw hx, decodeLoop_data (hcol.inside (k := 3) (by omega)) hy,
    decodeChar]
  simp only [h3, byte2, List.append_assoc, List.cons_append, List.nil_append]

end Decode

/-- What `base64decode` asks of the state at the end of its loop. -/
structure DecState.Accepts (pad : Bool) (inlen : Nat) (st : DecState) (rest : List UInt8) :
    Prop where
  few : pad = true → inlen ≤ st.i + 3
  pads : pad = true → rest.dropLast.all (· == PAD) = true
  bits : (st.i - st.line) % 4 ≠ 0 → st.next = 0

/-- The variable `lastlen` of the decoder. -/
def lastLine (pad : Bool) (inlen : Nat) : Nat := if pad then inlen % (LINELEN + 1) else 0

theorem base64decode_eq_some {text : List UInt8} {pad : Bool} {d : List UInt8} :
    base64decode text pad = some d ↔
      (lastLine pad text.length > 0 → (lastLine pad text.length - 1) % 4 = 0) ∧
      ∃ st rest, decodeLoop pad (lastLine pad text.length) text.length text ⟨0, 0, 0, 0, []⟩ =
          some (st, rest) ∧ st.Accepts pad text.length rest ∧ st.out = d := by
  rw [base64decode]
  rw [← lastLine]
  by_cases hlast : lastLine pad text.length > 0 ∧ (lastLine pad text.length - 1) % 4 ≠ 0
  · rw [if_pos hlast]
    constructor
    · intro h
      cases h
    · rintro ⟨h, -⟩
      exact absurd (h hlast.1) hlast.2
  · rw [if_neg hlast]
    have hl : lastLine pad text.length > 0 → (lastLine pad text.length - 1) % 4 = 0 := by
      intro h
      by_contra hn
      exact hlast ⟨h, hn⟩
    rcases decodeLoop pad (lastLine pad text.length) text.length text ⟨0, 0, 0, 0, []⟩ with
      _ | ⟨st, rest⟩
    · simp
    · constructor
      · intro h
        simp only at h
        split at h
        · cases h
        split at h
        · cases h
        split at h
        · cases h
        rename_i h1 h2 h3
        refine ⟨hl, st, rest, rfl, ⟨?_, ?_, ?_⟩, Option.some.inj h⟩
        · intro hp
          by_contra hn
          exact h1 ⟨hp, by omega⟩
        · intro hp
          by_contra hn
          exact h2 ⟨hp, hn⟩
        · intro hm
          by_contra hn
          exact h3 ⟨hm, hn⟩
      · rintro ⟨-, st', rest', he, hacc, rfl⟩
        obtain ⟨rfl, rfl⟩ : st = st' ∧ rest = rest' := by simpa using he
        simp only
        rw [if_neg, if_neg, if_neg]
        · rintro ⟨hm, hn⟩
          exact hn (hacc.bits hm)
        · rintro ⟨hp, hn⟩
          exact hn (hacc.pads hp)
        · rintro ⟨hp, hn⟩
          have := hacc.few hp
          omega

/-- The text ends at the end of a line, or four characters into a group and
a newline. -/
theorem length_b64Text (g : Nat) (d : List UInt8) (line : Nat) (hg : g ≤ 16) :
    ∃ k p, p ≤ 16 ∧ 65 * line + 4 * g + (b64Text true g d).length = 65 * k + 4 * p + 1 := by
  induction g, d using b64Text.induct true generalizing line with
  | case1 g hp => exact ⟨line, g, hg, by simp [b64Text]⟩
  | case2 g hp => simp at hp
  | case3 g a =>
    by_cases h : g = 16
    · exact ⟨line + 1, 1, by omega, by simp [b64Text, lineBreak, h]; omega⟩
    · exact ⟨line, g + 1, by omega, by simp [b64Text, lineBreak, h]; omega⟩
  | case4 g a b =>
    by_cases h : g = 16
    · exact ⟨line + 1, 1, by omega, by simp [b64Text, lineBreak, h]; omega⟩
    · exact ⟨line, g + 1, by omega, by simp [b64Text, lineBreak, h]; omega⟩
  | case5 g a b c cs ih =>
    by_cases h : g = 16
    · obtain ⟨k, p, hp, he⟩ := ih (line + 1) (by simp [columnOf, h])
      simp only [columnOf, h, and_self, if_true, Nat.zero_add] at he
      exact ⟨k, p, hp, by simp [b64Text, lineBreak, columnOf, h]; omega⟩
    · obtain ⟨k, p, hp, he⟩ := ih line (by simp [columnOf, h]; omega)
      simp only [columnOf, h, and_false, if_false] at he
      exact ⟨k, p, hp, by simp [b64Text, lineBreak, columnOf, h]; omega⟩

theorem length_b64Text_flat (g : Nat) (d : List UInt8) :
    (b64Text false g d).length =
      d.length / 3 * 4 + if d.length % 3 ≠ 0 then d.length % 3 + 1 else 0 := by
  induction g, d using b64Text.induct false with
  | case1 g hp => simp at hp
  | case2 g hp => simp [b64Text]
  | case3 g a => simp [b64Text, lineBreak]
  | case4 g a b => simp [b64Text, lineBreak]
  | case5 g a b c cs ih =>
    have hdiv : (cs.length + 1 + 1 + 1) / 3 = cs.length / 3 + 1 := by omega
    have hmod : (cs.length + 1 + 1 + 1) % 3 = cs.length % 3 := by omega
    simp only [b64Text, lineBreak, List.length_append, List.length_cons, List.length_nil, ih,
      hdiv, hmod]
    simp
    omega

private theorem decode_break {pad : Bool} {lastlen inlen g i line : Nat} {cur next : UInt8}
    {out : List UInt8} (hpos : i = 65 * line + 4 * g) (hfull : pad = true → g ≤ 16)
    (hflat : pad = false → line = 0) (xs : List UInt8) :
    ∃ i' line', AtCol pad line' (columnOf pad g) i' ∧ i' = i + (lineBreak pad g).length ∧
      decodeLoop pad lastlen inlen (lineBreak pad g ++ xs) ⟨i, line, cur, next, out⟩ =
        decodeLoop pad lastlen inlen xs ⟨i', line', cur, next, out⟩ := by
  by_cases hb : pad = true ∧ g = 16
  · obtain ⟨hp, hg⟩ := hb
    refine ⟨i + 1, line + 1, ⟨?_, ?_, ?_⟩, ?_, ?_⟩
    · simp only [columnOf, hp, hg, and_self, if_true]
      omega
    · simp [columnOf, hp, hg]
    · simp [hp]
    · simp [lineBreak, hp, hg]
    · rw [lineBreak, if_pos ⟨hp, hg⟩, List.singleton_append, decodeLoop_newline]
      exact ⟨hp, by simp only; omega, by simp only [LINELEN]; omega⟩
  · refine ⟨i, line, ⟨?_, ?_, hflat⟩, ?_, ?_⟩
    · rw [columnOf, if_neg hb]
      exact hpos
    · intro hp
      have hg : g ≠ 16 := fun h => hb ⟨hp, h⟩
      have := hfull hp
      rw [columnOf, if_neg hb]
      omega
    · simp [lineBreak, hb]
    · rw [lineBreak, if_neg hb, List.nil_append]

private theorem decodeLoop_pad {lastlen inlen : Nat} {xs : List UInt8} {st : DecState}
    (hcol : ¬ (true ∧ st.i > 0 ∧ (st.i + 1) % (LINELEN + 1) = 0)) :
    decodeLoop true lastlen inlen (PAD :: xs) st = some (st, PAD :: xs) := by
  rw [decodeLoop, if_neg hcol, if_pos rfl, if_neg (by simp)]

private theorem decodeLoop_final {pad : Bool} {lastlen inlen : Nat} {st : DecState}
    (hcol : ¬ (pad ∧ st.i > 0 ∧ (st.i + 1) % (LINELEN + 1) = 0)) (hne : lastlen ≠ 0)
    (hi : st.i + 1 = inlen) : decodeLoop pad lastlen inlen [NL] st = some (st, [NL]) := by
  rw [decodeLoop, if_neg hcol, if_neg (by decide), if_pos (by decide), if_pos ⟨hne, hi, rfl⟩]

private theorem bits_two (a : UInt8) : (sext1 a 0 &&& 0xf) <<< 4 = 0 := by
  apply byte_ext
  intro i hi
  interval_cases i <;> simp [sext1]

private theorem bits_three (b : UInt8) : (sext2 b 0 &&& 0x3) <<< 6 = 0 := by
  apply byte_ext
  intro i hi
  interval_cases i <;> simp [sext2]

/-- The decoder at a group of the text. -/
private theorem decodeLoop_b64Text {pad : Bool} {inlen : Nat} (g : Nat) (d : List UInt8)
    {i line : Nat} {cur next : UInt8} {out : List UInt8} (hpos : i = 65 * line + 4 * g)
    (hfull : pad = true → g ≤ 16) (hflat : pad = false → line = 0)
    (hlen : inlen = i + (b64Text pad g d).length) :
    ∃ st rest, decodeLoop pad (lastLine pad inlen) inlen (b64Text pad g d)
        ⟨i, line, cur, next, out⟩ = some (st, rest) ∧
      st.Accepts pad inlen rest ∧ st.out = out ++ d := by
  induction g, d using b64Text.induct pad generalizing i line cur next out with
  | case1 g hp =>
    subst hp
    simp only [b64Text, if_true, List.length_singleton] at hlen ⊢
    by_cases hg : g = 16
    · refine ⟨_, _, decodeLoop_newline ⟨rfl, ?_, ?_⟩, ⟨?_, ?_, ?_⟩, ?_⟩
      · simp only
        omega
      · simp only [LINELEN]
        omega
      · simp only
        omega
      · simp
      · simp only
        omega
      · simp
    · have hcol : AtCol true line g i := ⟨hpos, fun _ => by have := hfull rfl; omega, hflat⟩
      have hlast : (65 * line + (4 * g + 1)) % 65 = 4 * g + 1 :=
        column_mod line (by have := hcol.full rfl; omega)
      have hne : lastLine true inlen ≠ 0 := by
        rw [lastLine, if_pos rfl, LINELEN, hlen, hpos, Nat.add_assoc, hlast]
        omega
      refine ⟨⟨i, line, cur, next, out⟩, [NL], ?_, ⟨?_, ?_, ?_⟩, ?_⟩
      · exact decodeLoop_final (hcol.inside (k := 0) (by omega)) hne (by simp only; omega)
      · intro _
        simp only
        omega
      · simp
      · have := hcol.mod (k := 0) (by omega)
        simp only
        omega
      · simp
  | case2 g hp =>
    obtain rfl : pad = false := by simpa using hp
    refine ⟨⟨i, line, cur, next, out⟩, [], by simp [b64Text, decodeLoop], ⟨by simp, by simp, ?_⟩,
      by simp⟩
    simp only
    omega
  | case3 g a =>
    obtain ⟨i', line', hcol, hi', hbr⟩ := @decode_break pad (lastLine pad inlen)
      inlen g i line cur next out hpos hfull hflat
      ([etableAt (sext0 a), etableAt (sext1 a 0)] ++ if pad then [PAD, PAD, NL] else [])
    have h2 := @decode_two pad (lastLine pad inlen) inlen line' _ i' cur next out hcol _ _
      (if pad then [PAD, PAD, NL] else [])
      (sextet_etableAt _ (sext0_lt a)) (sextet_etableAt _ (sext1_lt a 0))
    rw [dtableAt_etableAt _ (sext0_lt a), dtableAt_etableAt _ (sext1_lt a 0), byte0_sext,
      bits_two] at h2
    rw [b64Text, List.append_assoc, hbr, List.cons_append, List.singleton_append, h2]
    cases pad with
    | false => exact ⟨_, _, rfl, ⟨by simp, by simp, fun _ => rfl⟩, rfl⟩
    | true =>
      refine ⟨_, _, decodeLoop_pad (hcol.inside (k := 2) (by omega)), ⟨?_, ?_, fun _ => rfl⟩, rfl⟩
      · intro _
        simp only [b64Text, List.length_append, List.length_cons, List.length_nil, if_true] at hlen
        simp only
        omega
      · simp
  | case4 g a b =>
    obtain ⟨i', line', hcol, hi', hbr⟩ := @decode_break pad (lastLine pad inlen)
      inlen g i line cur next out hpos hfull hflat
      ([etableAt (sext0 a), etableAt (sext1 a b), etableAt (sext2 b 0)] ++
        if pad then [PAD, NL] else [])
    have h3 := @decode_three pad (lastLine pad inlen) inlen line' _ i' cur next out hcol _ _ _
      (if pad then [PAD, NL] else [])
      (sextet_etableAt _ (sext0_lt a)) (sextet_etableAt _ (sext1_lt a b))
      (sextet_etableAt _ (sext2_lt b 0))
    rw [dtableAt_etableAt _ (sext0_lt a), dtableAt_etableAt _ (sext1_lt a b),
      dtableAt_etableAt _ (sext2_lt b 0), byte0_sext, byte1_sext, bits_three] at h3
    rw [b64Text, List.append_assoc, hbr, List.cons_append, List.cons_append,
      List.singleton_append, h3]
    cases pad with
    | false => exact ⟨_, _, rfl, ⟨by simp, by simp, fun _ => rfl⟩, rfl⟩
    | true =>
      refine ⟨_, _, decodeLoop_pad (hcol.inside (k := 3) (by omega)), ⟨?_, ?_, fun _ => rfl⟩, rfl⟩
      · intro _
        simp only [b64Text, List.length_append, List.length_cons, List.length_nil, if_true] at hlen
        simp only
        omega
      · simp
  | case5 g a b c cs ih =>
    obtain ⟨i', line', hcol, hi', hbr⟩ := @decode_break pad (lastLine pad inlen)
      inlen g i line cur next out hpos hfull hflat
      ([etableAt (sext0 a), etableAt (sext1 a b), etableAt (sext2 b c), etableAt (sext3 c)] ++
        b64Text pad (columnOf pad g + 1) cs)
    have h4 := @decode_four pad (lastLine pad inlen) inlen line' _ i' cur next out hcol _ _ _ _
      (b64Text pad (columnOf pad g + 1) cs)
      (sextet_etableAt _ (sext0_lt a)) (sextet_etableAt _ (sext1_lt a b))
      (sextet_etableAt _ (sext2_lt b c)) (sextet_etableAt _ (sext3_lt c))
    rw [dtableAt_etableAt _ (sext0_lt a), dtableAt_etableAt _ (sext1_lt a b),
      dtableAt_etableAt _ (sext2_lt b c), dtableAt_etableAt _ (sext3_lt c), byte0_sext,
      byte1_sext, byte2_sext] at h4
    rw [b64Text, List.append_assoc, hbr, List.cons_append, List.cons_append, List.cons_append,
      List.singleton_append, h4]
    obtain ⟨st, rest, hd, hacc, hout⟩ := @ih (i' + 4) line'
      (sext0 a <<< 2) ((sext2 b c &&& 0x3) <<< 6) (out ++ [a, b, c])
      (by have := hcol.pos; omega) (fun hp => by have := hcol.full hp; omega) hcol.flat
      (by
        simp only [b64Text, List.length_append, List.length_cons, List.length_nil] at hlen
        omega)
    exact ⟨st, rest, hd, hacc, by rw [hout]; simp⟩

/-- Decoding undoes encoding. -/
theorem base64decode_encode (pad : Bool) (d : List UInt8) :
    base64decode (base64encode d pad) pad = some d := by
  rw [base64encode_eq, base64decode_eq_some]
  constructor
  · cases pad with
    | false => simp [lastLine]
    | true =>
      obtain ⟨k, p, hp, he⟩ := length_b64Text 0 d 0 (by omega)
      have hl : (b64Text true 0 d).length = 65 * k + (4 * p + 1) := by omega
      simp only [lastLine, if_true, LINELEN, hl]
      by_cases h16 : p = 16
      · omega
      · rw [column_mod k (by omega)]
        omega
  · obtain ⟨st, rest, hd, hacc, hout⟩ := @decodeLoop_b64Text pad
      (b64Text pad 0 d).length 0 d 0 0 0 0 [] (by omega) (fun _ => by omega) (fun _ => rfl)
      (by omega)
    exact ⟨st, rest, hd, hacc, by simpa using hout⟩

/-! ## What the decoder accepts -/

/-- The check of the length of the last line. -/
private theorem quad_of_lastLine {line q : Nat} (h0 : 0 < q) (hq : q ≤ 65)
    (h : lastLine true (65 * line + q) > 0 → (lastLine true (65 * line + q) - 1) % 4 = 0) :
    q % 4 = 1 := by
  by_cases h65 : q = 65
  · omega
  · rw [lastLine, if_pos rfl, LINELEN, column_mod line (by omega)] at h
    have := h h0
    omega

private theorem b64Text_break {d : List UInt8} (hd : d ≠ []) :
    b64Text true 16 d = NL :: b64Text true 0 d := by
  rcases d with _ | ⟨a, _ | ⟨b, _ | ⟨c, cs⟩⟩⟩
  · exact absurd rfl hd
  · simp [b64Text, lineBreak]
  · simp [b64Text, lineBreak]
  · simp [b64Text, lineBreak, columnOf]

/-- A stop of the decoder among the characters of a group: at a padding
character in front of at most two more, or at the final newline. -/
private theorem stop_cases {inlen line g i k : Nat} (hcol : AtCol true line g i) (hk : k < 4)
    {x : UInt8} {xs rest : List UInt8} {st₀ st : DecState} (hst : st₀.i = i + k)
    (hx : sextet x = false)
    (h : decodeLoop true (lastLine true inlen) inlen (x :: xs) st₀ = some (st, rest))
    (hacc : st.Accepts true inlen rest) :
    st = st₀ ∧ ((inlen ≤ i + k + 3 ∧ x = PAD ∧ (x :: xs).dropLast.all (· == PAD) = true) ∨
      (inlen = i + k + 1 ∧ x = NL)) := by
  have hc := hcol.inside hk
  rw [← hst] at hc
  rcases decodeLoop_stop hc hx h with ⟨hr, -, hpad⟩ | ⟨hr, -, hi, hnl⟩
  · obtain ⟨rfl, rfl⟩ : st = st₀ ∧ rest = x :: xs := by simpa using hr
    exact ⟨rfl, .inl ⟨hst ▸ hacc.few rfl, hpad, hacc.pads rfl⟩⟩
  · obtain ⟨rfl, rfl⟩ : st = st₀ ∧ rest = x :: xs := by simpa using hr
    exact ⟨rfl, .inr ⟨by omega, hnl⟩⟩

private theorem sextet_nl : sextet NL = false := by decide

/-- Every text that the decoder accepts is the text of what it decodes,
when it ends in a newline and its last line is not empty. -/
private theorem b64Text_of_decode {inlen : Nat} (m : Nat) : ∀ (xs : List UInt8)
    (g line i : Nat) (cur next : UInt8) (out : List UInt8) (st : DecState) (rest : List UInt8),
    xs.length ≤ m → i = 65 * line + 4 * g → g ≤ 16 → inlen = i + xs.length →
    (lastLine true inlen > 0 → (lastLine true inlen - 1) % 4 = 0) → lastLine true inlen ≠ 1 →
    xs.getLast? = some NL →
    decodeLoop true (lastLine true inlen) inlen xs ⟨i, line, cur, next, out⟩ = some (st, rest) →
    st.Accepts true inlen rest → ∃ d, st.out = out ++ d ∧ xs = b64Text true g d := by
  induction m with
  | zero =>
    intro xs g line i cur next out st rest hm _ _ _ _ _ hlast
    obtain rfl : xs = [] := List.length_eq_zero_iff.mp (by omega)
    simp at hlast
  | succ m ih =>
    intro xs g line i cur next out st rest hm hpos hg hlen hquad hne1 hlast h hacc
    by_cases h16 : g = 16
    · -- the end of a full line: a newline must follow
      rcases xs with _ | ⟨x, xs⟩
      · simp at hlast
      have hend : true ∧ i > 0 ∧ (i + 1) % (LINELEN + 1) = 0 :=
        ⟨rfl, by omega, by simp only [LINELEN]; omega⟩
      obtain rfl : x = NL := by
        by_contra hn
        rw [decodeLoop, if_pos (by simpa using hend), if_pos hn] at h
        cases h
      rw [decodeLoop_newline (by simpa using hend)] at h
      subst h16
      rcases xs with _ | ⟨y, ys⟩
      · obtain ⟨rfl, rfl⟩ : _ = st ∧ [] = rest := by simpa [decodeLoop] using h
        exact ⟨[], by simp, by simp [b64Text]⟩
      · simp only [List.length_cons] at hm hlen
        obtain ⟨d, hout, htext⟩ := ih (y :: ys) 0 (line + 1) (i + 1) cur next out st rest
          (by simp only [List.length_cons]; omega) (by omega) (by omega)
          (by simp only [List.length_cons]; omega) hquad hne1 (by simpa using hlast) h hacc
        refine ⟨d, hout, ?_⟩
        have hd : d ≠ [] := by
          rintro rfl
          simp only [b64Text, if_true, List.cons.injEq] at htext
          have hi : inlen = 65 * (line + 1) + 1 := by
            rw [htext.2] at hlen
            simp at hlen
            omega
          rw [lastLine, if_pos rfl, LINELEN, hi, column_mod _ (by omega)] at hne1
          exact hne1 rfl
        rw [b64Text_break hd, ← htext]
    have hcol : AtCol true line g i := ⟨hpos, fun _ => by omega, by simp⟩
    have hshort : xs.length ≤ 6 → xs.length % 4 = 1 := by
      intro h6
      have h0 : 0 < xs.length := by
        rcases xs with _ | ⟨x, xs⟩
        · simp at hlast
        · simp
      have hq : inlen = 65 * line + (4 * g + xs.length) := by omega
      have h66 : 4 * g + xs.length ≠ 66 := by
        intro h66
        have hi : inlen = 65 * (line + 1) + 1 := by omega
        rw [lastLine, if_pos rfl, LINELEN, hi, column_mod _ (by omega)] at hne1
        exact hne1 rfl
      have := quad_of_lastLine (by omega) (by omega) (hq ▸ hquad)
      omega
    rcases xs with _ | ⟨x, xs⟩
    · simp at hlast
    simp only [List.length_cons] at hm hlen hshort
    rcases hx : sextet x with _ | _
    · obtain ⟨rfl, hstop⟩ := stop_cases hcol (k := 0) (by omega) (by simp) hx h hacc
      obtain ⟨hlen', rfl⟩ : inlen = i + 1 ∧ x = NL := by
        rcases hstop with ⟨hfew, rfl, -⟩ | hnl
        · have := hshort (by omega)
          obtain rfl : xs = [] := List.length_eq_zero_iff.mp (by omega)
          simp [PAD, NL] at hlast
        · exact hnl
      obtain rfl : xs = [] := List.length_eq_zero_iff.mp (by omega)
      exact ⟨[], by simp, by simp [b64Text]⟩
    rcases xs with _ | ⟨w, xs⟩
    · simp at hlast
      simp [hlast, sextet_nl] at hx
    simp only [List.length_cons] at hm hlen hshort
    rcases hw : sextet w with _ | _
    · rw [decode_one hcol _ hx] at h
      obtain ⟨rfl, hstop⟩ := stop_cases hcol (k := 1) (by omega) (by simp) hw h hacc
      have := hshort (by omega)
      omega
    rcases xs with _ | ⟨y, xs⟩
    · simp at hlast
      simp [hlast, sextet_nl] at hw
    simp only [List.length_cons] at hm hlen hshort
    obtain ⟨hex, hx64⟩ := etableAt_dtableAt x hx
    obtain ⟨hew, hw64⟩ := etableAt_dtableAt w hw
    rcases hy : sextet y with _ | _
    · rw [decode_two hcol _ hx hw] at h
      obtain ⟨rfl, hstop⟩ := stop_cases hcol (k := 2) (by omega) (by simp) hy h hacc
      have hmod := hshort (by omega)
      obtain ⟨rfl, hall⟩ : y = PAD ∧ (y :: xs).dropLast.all (· == PAD) = true := by
        rcases hstop with ⟨-, hp⟩ | ⟨hlen', -⟩
        · exact hp
        · omega
      obtain ⟨p, q, rfl⟩ : ∃ p q, xs = [p, q] := by
        rcases xs with _ | ⟨p, _ | ⟨q, _ | ⟨r, xs⟩⟩⟩ <;> simp at hmod hlen hstop ⊢
        omega
      obtain rfl : p = PAD := by simpa using hall
      obtain rfl : q = NL := by simpa using hlast
      have hbits : (dtableAt w &&& 0xf) <<< 4 = 0 := by
        refine hacc.bits ?_
        have := hcol.mod (k := 2) (by omega)
        simp only
        omega
      refine ⟨[byte0 (dtableAt x) (dtableAt w)], rfl, ?_⟩
      simp [b64Text, lineBreak, h16, sext0_byte _ hx64, sext1_byte_last _ hw64 hbits, hex, hew]
    rcases xs with _ | ⟨z, xs⟩
    · simp at hlast
      simp [hlast, sextet_nl] at hy
    simp only [List.length_cons] at hm hlen hshort
    obtain ⟨hey, hy64⟩ := etableAt_dtableAt y hy
    rcases hz : sextet z with _ | _
    · rw [decode_three hcol _ hx hw hy] at h
      obtain ⟨rfl, hstop⟩ := stop_cases hcol (k := 3) (by omega) (by simp) hz h hacc
      have hmod := hshort (by omega)
      obtain ⟨rfl, -⟩ : z = PAD ∧ (z :: xs).dropLast.all (· == PAD) = true := by
        rcases hstop with ⟨-, hp⟩ | ⟨hlen', -⟩
        · exact hp
        · omega
      obtain ⟨q, rfl⟩ : ∃ q, xs = [q] := by
        rcases xs with _ | ⟨q, _ | ⟨r, xs⟩⟩ <;> simp at hmod hlen hstop ⊢
        omega
      obtain rfl : q = NL := by simpa using hlast
      have hbits : (dtableAt y &&& 0x3) <<< 6 = 0 := by
        refine hacc.bits ?_
        have := hcol.mod (k := 3) (by omega)
        simp only
        omega
      refine ⟨[byte0 (dtableAt x) (dtableAt w), byte1 (dtableAt w) (dtableAt y)], rfl, ?_⟩
      simp [b64Text, lineBreak, h16, sext0_byte _ hx64, sext1_byte _ _ hw64,
        sext2_byte_last _ hy64 hbits, hex, hew, hey]
    obtain ⟨hez, hz64⟩ := etableAt_dtableAt z hz
    rw [decode_four hcol _ hx hw hy hz] at h
    have hlast' : xs.getLast? = some NL := by
      rcases xs with _ | ⟨v, xs⟩
      · simp at hlast
        simp [hlast, sextet_nl] at hz
      · simpa using hlast
    obtain ⟨d, hout, htext⟩ := ih xs (g + 1) line (i + 4) _ _ _ st rest (by omega) (by omega)
      (by omega) (by omega) hquad hne1 hlast' h hacc
    refine ⟨byte0 (dtableAt x) (dtableAt w) :: byte1 (dtableAt w) (dtableAt y) ::
      byte2 (dtableAt y) (dtableAt z) :: d, by rw [hout]; simp, ?_⟩
    simp [b64Text, lineBreak, columnOf, h16, sext0_byte _ hx64, sext1_byte _ _ hw64,
      sext2_byte _ hy64 hz64, sext3_byte _ hz64, hex, hew, hey, hez, ← htext]

/-- The decoder accepts no text but the encoder's, when the text ends in a
newline and its last line is not empty. -/
theorem base64encode_decode {text d : List UInt8} (h : base64decode text true = some d)
    (hlast : text.getLast? = some NL) (hline : text.length % 65 ≠ 1) :
    text = base64encode d true := by
  obtain ⟨hquad, st, rest, hdec, hacc, rfl⟩ := base64decode_eq_some.mp h
  obtain ⟨d, hout, htext⟩ := b64Text_of_decode text.length text 0 0 0 0 0 [] st rest
    (Nat.le_refl _) rfl (by omega) (by omega) hquad (by simpa [lastLine, LINELEN] using hline)
    hlast hdec hacc
  rw [base64encode_eq, hout]
  exact htext

/-! ## Lengths, ends and parts of the text -/

private theorem length_decodeLoop {pad : Bool} {lastlen inlen : Nat} (xs : List UInt8)
    (st st' : DecState) (rest : List UInt8)
    (h : decodeLoop pad lastlen inlen xs st = some (st', rest)) :
    st'.out.length ≤ st.out.length + xs.length := by
  induction xs generalizing st with
  | nil =>
    obtain ⟨rfl, -⟩ : st = st' ∧ [] = rest := by simpa [decodeLoop] using h
    simp
  | cons x xs ih =>
    have hstay : ∀ r, some (st, x :: xs) = some r → r = (st', rest) →
        st'.out.length ≤ st.out.length + (x :: xs).length := by
      rintro r hr rfl
      obtain ⟨rfl, -⟩ : st = st' ∧ x :: xs = rest := by simpa using hr
      omega
    rw [decodeLoop] at h
    split at h
    · split at h
      · cases h
      · have := ih _ h
        simp only [List.length_cons]
        simp only at this
        omega
    split at h
    · split at h
      · cases h
      · exact hstay _ h rfl
    split at h
    · split at h
      · exact hstay _ h rfl
      · cases h
    split at h
    · cases h
    · have := ih _ h
      have hc : (decodeChar (dtableAt x) st).out.length ≤ st.out.length + 1 := by
        unfold decodeChar
        split <;> simp
      simp only [List.length_cons]
      omega

/-- The decoder writes fewer bytes than it reads. -/
theorem length_base64decode {text d : List UInt8} {pad : Bool}
    (h : base64decode text pad = some d) : d.length ≤ text.length := by
  obtain ⟨-, st, rest, hdec, -, rfl⟩ := base64decode_eq_some.mp h
  simpa using length_decodeLoop text _ _ _ hdec

private theorem decodeLoop_progress {pad : Bool} {lastlen inlen : Nat} (xs : List UInt8)
    (st : DecState) (r : DecState × List UInt8) (hst : st.out = [] → st.i ≤ 1 ∧ st.line = 0)
    (h : decodeLoop pad lastlen inlen xs st = some r) :
    r.1.out = [] → r.1.i ≤ 1 ∧ r.1.line = 0 := by
  induction xs generalizing st with
  | nil =>
    obtain rfl : (st, []) = r := by simpa [decodeLoop] using h
    exact hst
  | cons x xs ih =>
    rw [decodeLoop] at h
    split at h
    · rename_i hcol
      split at h
      · cases h
      · refine ih _ (fun hout => ?_) h
        have := hst hout
        simp only [LINELEN] at hcol
        omega
    split at h
    · split at h
      · cases h
      · obtain rfl := Option.some.inj h
        exact hst
    split at h
    · split at h
      · obtain rfl := Option.some.inj h
        exact hst
      · cases h
    split at h
    · cases h
    · refine ih _ ?_ h
      unfold decodeChar
      split
      · intro hout
        have := hst hout
        simp only
        omega
      all_goals simp

/-- A text of more than one group is not decoded to nothing. -/
theorem base64decode_ne_nil {text d : List UInt8} (h : base64decode text true = some d)
    (hlen : 5 ≤ text.length) : d ≠ [] := by
  obtain ⟨-, st, rest, hdec, hacc, rfl⟩ := base64decode_eq_some.mp h
  intro hnil
  have hi : st.i ≤ 1 ∧ st.line = 0 := decodeLoop_progress text _ _ (by simp) hdec hnil
  have := hacc.few rfl
  omega

private theorem nl_of_decodeLoop {inlen : Nat} (xs : List UInt8) (st : DecState)
    (r : DecState × List UInt8) (hne : xs ≠ []) (hpos : st.i > 0 ∨ xs.length > 1)
    (hlen : inlen = st.i + xs.length) (hlines : inlen % 65 = 0) (hpad : PAD ∉ xs)
    (h : decodeLoop true (lastLine true inlen) inlen xs st = some r) :
    xs.getLast? = some NL := by
  have hl0 : lastLine true inlen = 0 := by simpa [lastLine, LINELEN] using hlines
  rw [hl0] at h
  induction xs generalizing st with
  | nil => exact absurd rfl hne
  | cons x xs ih =>
    simp only [List.length_cons] at hlen hpos
    have htail : ∀ st₁ : DecState, st₁.i = st.i + 1 → xs ≠ [] →
        decodeLoop true 0 inlen xs st₁ = some r → (x :: xs).getLast? = some NL := by
      intro st₁ hi hxs hd
      have := ih st₁ hxs (.inl (by omega)) (by omega)
        (fun hm => hpad (List.mem_cons_of_mem _ hm)) hd
      rcases xs with _ | ⟨y, ys⟩
      · exact absurd rfl hxs
      · simpa using this
    rw [decodeLoop] at h
    split at h
    · split at h
      · cases h
      · rename_i hx
        by_cases hxs : xs = []
        · simp [hxs, not_not.mp hx]
        · exact htail _ rfl hxs h
    rename_i hcol
    have hxs : xs ≠ [] := by
      rintro rfl
      simp only [List.length_nil] at hlen hpos
      exact hcol ⟨rfl, by omega, by simp only [LINELEN]; omega⟩
    split at h
    · rename_i hp
      exact absurd (hp ▸ List.mem_cons_self) hpad
    split at h
    · split at h
      · rename_i hz
        exact absurd rfl hz.1
      · cases h
    split at h
    · cases h
    · refine htail _ ?_ hxs h
      unfold decodeChar
      split <;> rfl

/-- Full lines without padding end in a newline. -/
theorem nl_of_base64decode {text d : List UInt8} (h : base64decode text true = some d)
    (hne : text ≠ []) (hlines : text.length % 65 = 0) (hpad : PAD ∉ text) :
    text.getLast? = some NL := by
  obtain ⟨-, st, rest, hdec, -, -⟩ := base64decode_eq_some.mp h
  have h0 : text.length ≠ 0 := fun h0 => hne (List.length_eq_zero_iff.mp h0)
  exact nl_of_decodeLoop text _ _ hne (.inr (by omega)) (by simp) hlines hpad hdec

theorem getLast_b64Text (g : Nat) (d : List UInt8) :
    (b64Text true g d).getLast? = some NL := by
  induction g, d using b64Text.induct true with
  | case1 g hp => simp [b64Text]
  | case2 g hp => simp at hp
  | case3 g a => simp [b64Text]
  | case4 g a b => simp [b64Text]
  | case5 g a b c cs ih =>
    rw [b64Text, List.getLast?_append, ih]
    rfl

private theorem etableAt_ne_pad {v : UInt8} (hv : v < 64) : etableAt v ≠ PAD := by
  intro h
  have := sextet_etableAt v hv
  rw [h] at this
  exact absurd this (by decide)

/-- The text in two parts, the padding only in the second. -/
theorem b64Text_pads (g : Nat) (d : List UInt8) :
    ∃ chars tail, b64Text true g d = chars ++ tail ∧ tail.length ≤ 3 ∧ PAD ∉ chars := by
  have hbr : PAD ∉ lineBreak true g := by
    unfold lineBreak
    split <;> simp [PAD, NL]
  induction g, d using b64Text.induct true with
  | case1 g hp => exact ⟨[], [NL], by simp [b64Text], by simp, by simp⟩
  | case2 g hp => simp at hp
  | case3 g a =>
    refine ⟨_, [PAD, PAD, NL], rfl, by simp, ?_⟩
    simp only [List.mem_append, List.mem_cons, List.not_mem_nil, or_false, not_or]
    exact ⟨hbr, (etableAt_ne_pad (sext0_lt a)).symm, (etableAt_ne_pad (sext1_lt a 0)).symm⟩
  | case4 g a b =>
    refine ⟨_, [PAD, NL], rfl, by simp, ?_⟩
    simp only [List.mem_append, List.mem_cons, List.not_mem_nil, or_false, not_or]
    exact ⟨hbr, (etableAt_ne_pad (sext0_lt a)).symm, (etableAt_ne_pad (sext1_lt a b)).symm,
      (etableAt_ne_pad (sext2_lt b 0)).symm⟩
  | case5 g a b c cs ih =>
    obtain ⟨chars, tail, htext, htail, hchars⟩ := ih (by
      unfold lineBreak
      split <;> simp [PAD, NL])
    refine ⟨lineBreak true g ++ [etableAt (sext0 a), etableAt (sext1 a b),
      etableAt (sext2 b c), etableAt (sext3 c)] ++ chars, tail, ?_, htail, ?_⟩
    · rw [b64Text, htext, List.append_assoc _ chars]
    · simp only [List.mem_append, List.mem_cons, List.not_mem_nil, or_false, not_or]
      exact ⟨⟨hbr, (etableAt_ne_pad (sext0_lt a)).symm, (etableAt_ne_pad (sext1_lt a b)).symm,
        (etableAt_ne_pad (sext2_lt b c)).symm, (etableAt_ne_pad (sext3_lt c)).symm⟩, hchars⟩

/-- Every character of an unpadded text is in the alphabet. -/
theorem sextet_b64Text (g : Nat) (d : List UInt8) :
    ∀ c ∈ b64Text false g d, sextet c = true := by
  induction g, d using b64Text.induct false with
  | case1 g hp => simp at hp
  | case2 g hp => simp [b64Text]
  | case3 g a =>
    simp [b64Text, lineBreak, sextet_etableAt _ (sext0_lt a), sextet_etableAt _ (sext1_lt a 0)]
  | case4 g a b =>
    simp [b64Text, lineBreak, sextet_etableAt _ (sext0_lt a), sextet_etableAt _ (sext1_lt a b),
      sextet_etableAt _ (sext2_lt b 0)]
  | case5 g a b c cs ih =>
    intro x hx
    simp only [b64Text, lineBreak, List.mem_append, List.mem_cons, List.not_mem_nil,
      or_false] at hx
    rcases hx with ⟨hx | rfl | rfl | rfl | rfl⟩ | hx
    · simp at hx
    · exact sextet_etableAt _ (sext0_lt a)
    · exact sextet_etableAt _ (sext1_lt a b)
    · exact sextet_etableAt _ (sext2_lt b c)
    · exact sextet_etableAt _ (sext3_lt c)
    · exact ih x hx

/-- Full lines in front of more text. -/
private theorem b64Text_append (g : Nat) (d : List UInt8) {m : Nat} {d' : List UInt8}
    (hd : d.length = 3 * m) (hg : g ≤ 16) (hm : (g + m) % 16 = 0) (h0 : m = 0 → g = 16)
    (hne : d' ≠ []) :
    b64Text true g (d ++ d') = b64Text true g d ++ b64Text true 0 d' := by
  induction g, d using b64Text.induct true generalizing m with
  | case1 g hp =>
    obtain rfl : g = 16 := h0 (by simp at hd; omega)
    rw [List.nil_append, b64Text_break hne]
    simp [b64Text]
  | case2 g hp => simp at hp
  | case3 g a =>
    simp at hd
    omega
  | case4 g a b =>
    simp at hd
    omega
  | case5 g a b c cs ih =>
    simp only [List.length_cons] at hd
    have hcol : columnOf true g + 1 = if g = 16 then 1 else g + 1 := by
      simp only [columnOf, true_and]
      split <;> rfl
    have h := ih (m := m - 1) (by omega) (by split at hcol <;> omega)
      (by split at hcol <;> omega) (by intro hm0; split at hcol <;> omega)
    rw [List.cons_append, List.cons_append, List.cons_append, b64Text, h, b64Text,
      List.append_assoc _ (b64Text _ _ cs)]

/-- Encoding full lines and then the rest. -/
theorem base64encode_append {d d' : List UInt8} (hd : d.length % 48 = 0) (h0 : d ≠ [])
    (hne : d' ≠ []) :
    base64encode (d ++ d') true = base64encode d true ++ base64encode d' true := by
  have hpos : d.length ≠ 0 := fun h => h0 (List.length_eq_zero_iff.mp h)
  rw [base64encode_eq, base64encode_eq, base64encode_eq]
  exact b64Text_append 0 d (m := d.length / 3) (by omega) (by omega) (by omega) (by omega) hne

private theorem length_b64Text_groups (g : Nat) (d : List UInt8) (line : Nat) (hg : g ≤ 16)
    (h0 : 0 < g + (d.length + 2) / 3) :
    65 * line + 4 * g + (b64Text true g d).length =
      4 * (16 * line + g + (d.length + 2) / 3) +
        (16 * line + g + (d.length + 2) / 3 - 1) / 16 + 1 := by
  induction g, d using b64Text.induct true generalizing line with
  | case1 g hp =>
    simp [b64Text] at h0 ⊢
    omega
  | case2 g hp => simp at hp
  | case3 g a =>
    by_cases h : g = 16 <;> simp [b64Text, lineBreak, h] <;> omega
  | case4 g a b =>
    by_cases h : g = 16 <;> simp [b64Text, lineBreak, h] <;> omega
  | case5 g a b c cs ih =>
    by_cases h : g = 16
    · have := ih (line + 1) (by simp [columnOf, h]) (by simp [columnOf, h])
      simp only [columnOf, h, and_self, if_true, Nat.zero_add] at this
      simp [b64Text, lineBreak, columnOf, h]
      omega
    · have := ih line (by simp [columnOf, h]; omega) (by simp [columnOf, h])
      simp only [columnOf, h, and_false, if_false] at this
      simp [b64Text, lineBreak, columnOf, h]
      omega

/-- The length of the text, from the number of groups. -/
theorem length_base64encode {d : List UInt8} (hd : d ≠ []) :
    (base64encode d true).length =
      4 * ((d.length + 2) / 3) + ((d.length + 2) / 3 - 1) / 16 + 1 := by
  have hpos : d.length ≠ 0 := fun h => hd (List.length_eq_zero_iff.mp h)
  have h := length_b64Text_groups 0 d 0 (by omega) (by omega)
  rw [base64encode_eq]
  simpa using h

/-- The last line is not a lone newline. -/
theorem base64encode_mod {d : List UInt8} (hd : d ≠ []) :
    (base64encode d true).length % 65 ≠ 1 := by
  have hpos : d.length ≠ 0 := fun h => hd (List.length_eq_zero_iff.mp h)
  have h := length_base64encode hd
  obtain ⟨q, r, hr, hq⟩ : ∃ q r, r < 16 ∧ (d.length + 2) / 3 = 16 * q + r + 1 :=
    ⟨((d.length + 2) / 3 - 1) / 16, ((d.length + 2) / 3 - 1) % 16,
      Nat.mod_lt _ (by omega), by omega⟩
  have hl : (base64encode d true).length = 65 * q + (4 * r + 5) := by omega
  rw [hl]
  by_cases h15 : r = 15
  · omega
  · rw [column_mod q (by omega)]
    omega

/-! ## Unpadded text -/

private theorem sextet_of_plain {inlen : Nat} {x : UInt8} {xs : List UInt8} {st : DecState}
    {r : DecState × List UInt8} (h : decodeLoop false 0 inlen (x :: xs) st = some r) :
    sextet x = true := by
  rcases hx : sextet x with _ | _
  · rcases decodeLoop_stop (by simp) hx h with ⟨-, hp, -⟩ | ⟨-, hn, -⟩
    · cases hp
    · exact absurd rfl hn
  · rfl

/-- Every unpadded text that the decoder accepts is the text of what it
decodes, with at most one lone character behind it. -/
private theorem plain_of_decode {inlen : Nat} (m : Nat) : ∀ (xs : List UInt8) (g : Nat)
    (cur next : UInt8) (out : List UInt8) (st : DecState) (rest : List UInt8),
    xs.length ≤ m →
    decodeLoop false 0 inlen xs ⟨4 * g, 0, cur, next, out⟩ = some (st, rest) →
    st.Accepts false inlen rest →
    ∃ d lone, st.out = out ++ d ∧ xs = b64Text false g d ++ lone ∧
      (lone = [] ∨ ∃ c, lone = [c] ∧ sextet c = true ∧ (b64Text false g d).length % 4 = 0) := by
  induction m with
  | zero =>
    intro xs g cur next out st rest hm h hacc
    obtain rfl : xs = [] := List.length_eq_zero_iff.mp (by omega)
    obtain ⟨rfl, -⟩ : _ = st ∧ [] = rest := by simpa [decodeLoop] using h
    exact ⟨[], [], by simp, by simp [b64Text], .inl rfl⟩
  | succ m ih =>
    intro xs g cur next out st rest hm h hacc
    have hcol : AtCol false 0 g (4 * g) := ⟨by omega, by simp, fun _ => rfl⟩
    rcases xs with _ | ⟨x, xs⟩
    · obtain ⟨rfl, -⟩ : _ = st ∧ [] = rest := by simpa [decodeLoop] using h
      exact ⟨[], [], by simp, by simp [b64Text], .inl rfl⟩
    have hx := sextet_of_plain h
    obtain ⟨hex, hx64⟩ := etableAt_dtableAt x hx
    have h1 := h
    rw [decode_one hcol _ hx] at h1
    rcases xs with _ | ⟨w, xs⟩
    · obtain ⟨rfl, -⟩ : _ = st ∧ [] = rest := by simpa [decodeLoop] using h1
      exact ⟨[], [x], by simp, by simp [b64Text], .inr ⟨x, rfl, hx, by simp [b64Text]⟩⟩
    have hw := sextet_of_plain h1
    obtain ⟨hew, hw64⟩ := etableAt_dtableAt w hw
    have h2 := h
    rw [decode_two hcol _ hx hw] at h2
    rcases xs with _ | ⟨y, xs⟩
    · obtain ⟨rfl, -⟩ : _ = st ∧ [] = rest := by simpa [decodeLoop] using h2
      have hbits : (dtableAt w &&& 0xf) <<< 4 = 0 := by
        refine hacc.bits ?_
        have := hcol.mod (k := 2) (by omega)
        simp only
        omega
      refine ⟨[byte0 (dtableAt x) (dtableAt w)], [], rfl, ?_, .inl rfl⟩
      simp [b64Text, lineBreak, sext0_byte _ hx64, sext1_byte_last _ hw64 hbits, hex, hew]
    have hy := sextet_of_plain h2
    obtain ⟨hey, hy64⟩ := etableAt_dtableAt y hy
    have h3 := h
    rw [decode_three hcol _ hx hw hy] at h3
    rcases xs with _ | ⟨z, xs⟩
    · obtain ⟨rfl, -⟩ : _ = st ∧ [] = rest := by simpa [decodeLoop] using h3
      have hbits : (dtableAt y &&& 0x3) <<< 6 = 0 := by
        refine hacc.bits ?_
        have := hcol.mod (k := 3) (by omega)
        simp only
        omega
      refine ⟨[byte0 (dtableAt x) (dtableAt w), byte1 (dtableAt w) (dtableAt y)], [], rfl, ?_,
        .inl rfl⟩
      simp [b64Text, lineBreak, sext0_byte _ hx64, sext1_byte _ _ hw64,
        sext2_byte_last _ hy64 hbits, hex, hew, hey]
    have hz := sextet_of_plain h3
    obtain ⟨hez, hz64⟩ := etableAt_dtableAt z hz
    rw [decode_four hcol _ hx hw hy hz, show 4 * g + 4 = 4 * (g + 1) by omega] at h
    simp only [List.length_cons] at hm
    obtain ⟨d, lone, hout, htext, hlone⟩ := ih xs (g + 1) _ _ _ st rest (by omega) h hacc
    have hb : b64Text false g (byte0 (dtableAt x) (dtableAt w) :: byte1 (dtableAt w) (dtableAt y) ::
        byte2 (dtableAt y) (dtableAt z) :: d) = [x, w, y, z] ++ b64Text false (g + 1) d := by
      simp [b64Text, lineBreak, columnOf, sext0_byte _ hx64, sext1_byte _ _ hw64,
        sext2_byte _ hy64 hz64, sext3_byte _ hz64, hex, hew, hey, hez]
    refine ⟨byte0 (dtableAt x) (dtableAt w) :: byte1 (dtableAt w) (dtableAt y) ::
      byte2 (dtableAt y) (dtableAt z) :: d, lone, by rw [hout]; simp, ?_, ?_⟩
    · rw [hb, htext]
      simp
    · rcases hlone with hn | ⟨c, hc, hsx, hmod⟩
      · exact .inl hn
      · refine .inr ⟨c, hc, hsx, ?_⟩
        rw [hb, List.length_append, List.length_cons, List.length_cons, List.length_cons,
          List.length_singleton]
        omega

/-- An unpadded text is decoded only if it is the text of what it decodes to,
or that text and one more character behind full groups. -/
theorem plain_of_base64decode {text d : List UInt8} (h : base64decode text false = some d) :
    ∃ lone, text = base64encode d false ++ lone ∧
      (lone = [] ∨ ∃ c, lone = [c] ∧ sextet c = true ∧ (base64encode d false).length % 4 = 0) := by
  obtain ⟨-, st, rest, hdec, hacc, rfl⟩ := base64decode_eq_some.mp h
  obtain ⟨d, lone, hout, htext, hlone⟩ :=
    plain_of_decode text.length text 0 0 0 [] st rest (Nat.le_refl _) hdec hacc
  rw [List.nil_append] at hout
  rw [base64encode_eq, hout]
  exact ⟨lone, htext, hlone⟩

theorem length_plain (d : List UInt8) :
    (base64encode d false).length =
      d.length / 3 * 4 + if d.length % 3 ≠ 0 then d.length % 3 + 1 else 0 := by
  rw [base64encode_eq]
  exact length_b64Text_flat 0 d

/-- No text of whole bytes has a lone character at its end. -/
theorem length_plain_mod (d : List UInt8) : (base64encode d false).length % 4 ≠ 1 := by
  rw [length_plain]
  split <;> omega

/-- An unpadded text without a lone character is decoded only if it is the
text of what it decodes to. -/
theorem plain_iff {text d : List UInt8} (hmod : text.length % 4 ≠ 1) :
    base64decode text false = some d ↔ text = base64encode d false := by
  constructor
  · intro h
    obtain ⟨lone, htext, hlone⟩ := plain_of_base64decode h
    rcases hlone with rfl | ⟨c, rfl, -, hm⟩
    · rw [htext, List.append_nil]
    · rw [htext, List.length_append, List.length_singleton] at hmod
      omega
  · intro h
    rw [h]
    exact base64decode_encode false d

theorem sextet_plain (d : List UInt8) : ∀ c ∈ base64encode d false, sextet c = true := by
  rw [base64encode_eq]
  exact sextet_b64Text 0 d

end Agecrypt
