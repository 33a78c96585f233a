import Agecrypt.Lib.Bytes

/-!
# `util.c`: the texts in the error buffer

The codec keeps one buffer `ebuf` of 512 bytes for error texts.  `eset`
copies a text into it and `ewrap` puts one text in front of another; both
cut what does not fit.  The functions here compute the new contents.
-/

namespace Agecrypt

def EBUFSIZE : Nat := 512

/-- The first `n` characters of a text. -/
def cut (n : Nat) (s : String) : String := String.ofList (s.toList.take n)

/-- The contents after `eset(err)`. -/
def esetText (err : String) : String := cut (EBUFSIZE - 1) err

/-- The contents after `ewrap(outer, inner)`. -/
def ewrapText (outer inner : String) : String :=
  let olen := outer.length
  let ilen := inner.length
  if olen + 2 + ilen + 1 > EBUFSIZE then
    if olen + 2 + 1 > EBUFSIZE then
      cut (EBUFSIZE - 2 - 1) outer ++ ": "
    else outer ++ ": " ++ cut (EBUFSIZE - olen - 2 - 1) inner
  else outer ++ ": " ++ inner

end Agecrypt
