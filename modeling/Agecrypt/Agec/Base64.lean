import Agecrypt.Lib.Bytes

/-!
# `base64.c`

The encoder and the decoder of the vendored library, as they run: one
character at a time, with the counters that decide where a line ends.  With
`pad` the text is in lines of 64 characters, each ended by a newline, and
the last group is padded; without it the text is one unpadded run.

The decoder reads its whole input and stops early at a padding character
or at the final newline of a short line.  `DecState.out` is the decoded
prefix, `DecState.cur` the byte under construction, and `DecState.next` the
low bits that the next character completes.
-/

namespace Agecrypt

def LINELEN : Nat := 64

def DFIRST : UInt8 := 43   -- '+'
def DLAST : UInt8 := 122   -- 'z'
def PAD : UInt8 := 61      -- '='

/-- `'\n'` -/
def NL : UInt8 := 10

def etable : List UInt8 :=
  ascii "ABCDEFGHIJKLMNOPQRSTUVWXYZabcdefghijklmnopqrstuvwxyz0123456789+/"

/-- The decoding table: `0x80` for a byte outside the alphabet, and `0` for
the padding character. -/
def dtable : List UInt8 :=
  List.replicate 43 0x80 ++
  [0x3e, 0x80, 0x80, 0x80, 0x3f, 0x34, 0x35, 0x36, 0x37, 0x38, 0x39, 0x3a,
   0x3b, 0x3c, 0x3d, 0x80, 0x80, 0x80, 0x00, 0x80, 0x80, 0x80, 0x00,
   0x01, 0x02, 0x03, 0x04, 0x05, 0x06, 0x07, 0x08, 0x09, 0x0a, 0x0b,
   0x0c, 0x0d, 0x0e, 0x0f, 0x10, 0x11, 0x12, 0x13, 0x14, 0x15, 0x16,
   0x17, 0x18, 0x19, 0x80, 0x80, 0x80, 0x80, 0x80, 0x80, 0x1a, 0x1b,
   0x1c, 0x1d, 0x1e, 0x1f, 0x20, 0x21, 0x22, 0x23, 0x24, 0x25, 0x26,
   0x27, 0x28, 0x29, 0x2a, 0x2b, 0x2c, 0x2d, 0x2e, 0x2f, 0x30, 0x31,
   0x32, 0x33] ++
  List.replicate 133 0x80

def etableAt (v : UInt8) : UInt8 := etable.getD v.toNat 0

def dtableAt (c : UInt8) : UInt8 := dtable.getD c.toNat 0

/-! ## Encoding -/

/-- The characters after the last input byte, in state `s` of the group. -/
def encodeTail (pad : Bool) (s : Nat) (l : UInt8) : List UInt8 :=
  match s with
  | 0 => if pad then [NL] else []
  | 1 => etableAt ((l &&& 0x3) <<< 4) :: if pad then [PAD, PAD, NL] else []
  | _ => etableAt ((l &&& 0xf) <<< 2) :: if pad then [PAD, NL] else []

/-- The loop of `base64encode`: `s` counts the bytes of the group, `l` is
the previous byte and `j` the number of characters written. -/
def encodeLoop (pad : Bool) : List UInt8 → Nat → UInt8 → Nat → List UInt8
  | [], s, l, _ => encodeTail pad s l
  | c :: cs, s, l, j =>
    let nl := if pad && j > 0 && (j + 1) % (LINELEN + 1) == 0 then [NL] else []
    let j := j + nl.length
    match s with
    | 0 => nl ++ etableAt ((c >>> 2) &&& 0x3f) :: encodeLoop pad cs 1 c (j + 1)
    | 1 =>
      nl ++ etableAt (((l &&& 0x3) <<< 4) ||| ((c >>> 4) &&& 0xf)) ::
        encodeLoop pad cs 2 c (j + 1)
    | _ =>
      nl ++ etableAt (((l &&& 0xf) <<< 2) ||| ((c >>> 6) &&& 0x3)) ::
        etableAt (c &&& 0x3f) :: encodeLoop pad cs 0 c (j + 2)

def base64encode (inp : List UInt8) (pad : Bool) : List UInt8 :=
  encodeLoop pad inp 0 0 0

/-! ## Decoding -/

/-- The variables of the decoding loop. -/
structure DecState where
  i : Nat
  line : Nat
  cur : UInt8
  next : UInt8
  out : List UInt8
deriving DecidableEq, Repr

/-- The `switch` on the position of the character in its group. -/
def decodeChar (c : UInt8) (st : DecState) : DecState :=
  match (st.i - st.line) % 4 with
  | 0 => { st with i := st.i + 1, cur := c <<< 2 }
  | 1 =>
    { st with i := st.i + 1, out := st.out ++ [st.cur ||| ((c >>> 4) &&& 0x3)],
              next := (c &&& 0xf) <<< 4 }
  | 2 =>
    { st with i := st.i + 1, out := st.out ++ [st.next ||| ((c >>> 2) &&& 0xf)],
              next := (c &&& 0x3) <<< 6 }
  | _ => { st with i := st.i + 1, out := st.out ++ [st.next ||| c] }

/-- The loop of `base64decode` over the characters from position `st.i` on.
It answers the state at its end and the characters it did not consume. -/
def decodeLoop (pad : Bool) (lastlen inlen : Nat) :
    List UInt8 → DecState → Option (DecState × List UInt8)
  | [], st => some (st, [])
  | x :: xs, st =>
    if pad ∧ st.i > 0 ∧ (st.i + 1) % (LINELEN + 1) = 0 then
      if x ≠ NL then none
      else decodeLoop pad lastlen inlen xs
        { st with i := st.i + 1, line := st.line + 1 }
    else if x = PAD then
      if ¬ pad then none else some (st, x :: xs)
    else if x < DFIRST ∨ x > DLAST then
      if lastlen ≠ 0 ∧ st.i + 1 = inlen ∧ x = NL then some (st, x :: xs) else none
    else if dtableAt x = 0x80 then none
    else decodeLoop pad lastlen inlen xs (decodeChar (dtableAt x) st)

/-- The decoded bytes, or `none` when the text is refused.  After the loop
at most three characters may be left, all padding but the last, and the
bits that a partial group leaves over must be zero. -/
def base64decode (inp : List UInt8) (pad : Bool) : Option (List UInt8) :=
  let lastlen := if pad then inp.length % (LINELEN + 1) else 0
  if lastlen > 0 ∧ (lastlen - 1) % 4 ≠ 0 then none
  else
    match decodeLoop pad lastlen inp.length inp ⟨0, 0, 0, 0, []⟩ with
    | none => none
    | some (st, rest) =>
      if pad ∧ st.i + 2 + 1 < inp.length then none
      else if pad ∧ ¬ rest.dropLast.all (· == PAD) then none
      else if (st.i - st.line) % 4 ≠ 0 ∧ st.next ≠ 0 then none
      else some st.out

end Agecrypt
