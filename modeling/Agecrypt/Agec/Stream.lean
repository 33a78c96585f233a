import Agecrypt.Agec.Payload

/-!
# The STREAM construction

`STREAM C key p` cuts `p` into chunks of 65536 bytes and seals chunk `i`
under the nonce that is `i` in eleven bytes, big-endian, and a byte that is
set for the last chunk.  `Opens` is the other direction as `pldecrypt` goes
it: which bytes a sealed text opens to.  `pldecrypt` counts the chunks in an
`int`, and `Overruns` are the texts of which so many chunks open that the
`int` overflows.

For texts of fewer than `2 ^ 31` chunks `Opens` is `STREAM` (`opens_iff`),
and `Overlong` says what the others were sealed from (`overruns_iff`).
-/

namespace Agecrypt

/-! ## Nonces -/

/-- `i` in `n` bytes, big-endian. -/
def bigEndian : Nat → Nat → List UInt8
  | 0, _ => []
  | n + 1, i => bigEndian n (i / 256) ++ [UInt8.ofNat i]

theorem length_bigEndian (n i : Nat) : (bigEndian n i).length = n := by
  induction n generalizing i with
  | zero => rfl
  | succ n ih => simp [bigEndian, ih]

theorem bigEndian_inj {n : Nat} : ∀ {i j : Nat}, i < 256 ^ n → j < 256 ^ n →
    bigEndian n i = bigEndian n j → i = j := by
  induction n with
  | zero =>
    intro i j hi hj _
    omega
  | succ n ih =>
    intro i j hi hj h
    rw [Nat.pow_succ] at hi hj
    obtain ⟨hdiv, hlast⟩ := List.append_inj h (by rw [length_bigEndian, length_bigEndian])
    have hq := ih (by omega) (by omega) hdiv
    have hb : i % 256 = j % 256 := by
      have := congrArg UInt8.toNat (List.cons.inj hlast).1
      simpa using this
    omega

/-- The nonce of chunk `i`. -/
def chunkNonce (i : Nat) (last : Bool) : Bytes 12 :=
  ⟨bigEndian 11 i ++ [if last then 1 else 0], by
    rw [List.length_append, length_bigEndian]
    rfl⟩

theorem chunkNonce_inj {i j : Nat} {l m : Bool} (hi : i < 2 ^ 88) (hj : j < 2 ^ 88)
    (h : chunkNonce i l = chunkNonce j m) : i = j ∧ l = m := by
  have h88 : 2 ^ 88 = 256 ^ 11 := by decide
  have hv := congrArg Bytes.val h
  obtain ⟨hbig, hlast⟩ := List.append_inj hv (by rw [length_bigEndian, length_bigEndian])
  refine ⟨bigEndian_inj (n := 11) (h88 ▸ hi) (h88 ▸ hj) hbig, ?_⟩
  cases l <;> cases m <;> simp_all

theorem chunkNonce_zero : chunkNonce 0 false = Bytes.zero 12 := by decide

/-- Counting up `n` bytes. -/
theorem incnonceLoop_bigEndian (n i : Nat) (t : List UInt8) (hi : i < 256 ^ n) :
    incnonceLoop n (bigEndian n i ++ t) =
      (bigEndian n (i + 1) ++ t, if i + 1 < 256 ^ n then none else some ewrapped) := by
  induction n generalizing i t with
  | zero =>
    have h : ¬ i + 1 < 256 ^ 0 := by omega
    rw [if_neg h]
    rfl
  | succ n ih =>
    have hlen := length_bigEndian n (i / 256)
    have hat : (bigEndian (n + 1) i ++ t).getD n 0 = UInt8.ofNat i := by
      simp [bigEndian, List.getD_eq_getElem?_getD, hlen]
    have hset : ∀ b, (bigEndian (n + 1) i ++ t).set n b =
        bigEndian n (i / 256) ++ ([b] ++ t) := by
      intro b
      simp [bigEndian, hlen]
    rw [incnonceLoop]
    simp only [hat, hset]
    rw [Nat.pow_succ] at hi ⊢
    have hb : UInt8.ofNat i + 1 = UInt8.ofNat (i + 1) := by simp
    rw [hb]
    by_cases hz : UInt8.ofNat (i + 1) = 0
    · have hmod : (i + 1) % 256 = 0 := by
        have := congrArg UInt8.toNat hz
        simpa using this
      have hdiv : (i + 1) / 256 = i / 256 + 1 := by omega
      have hiff : (i / 256 + 1 < 256 ^ n) = (i + 1 < 256 ^ n * 256) := by
        rw [eq_iff_iff]
        omega
      rw [if_neg (by simpa using hz), ih (i / 256) _ (by omega), bigEndian, hdiv, hz]
      simp only [List.append_assoc, hiff]
    · have hmod : (i + 1) % 256 ≠ 0 := by
        intro h0
        apply hz
        rw [← UInt8.toNat_inj]
        simpa using h0
      have hdiv : (i + 1) / 256 = i / 256 := by omega
      rw [if_pos (by simpa using hz), bigEndian, hdiv, if_pos (by omega), List.append_assoc]

theorem incnonce_chunkNonce {i : Nat} (hi : i + 1 < 2 ^ 88) :
    incnonce (chunkNonce i false) = (chunkNonce (i + 1) false, none) := by
  have h88 : 2 ^ 88 = 256 ^ 11 := by decide
  rw [h88] at hi
  have h := incnonceLoop_bigEndian 11 i [0] (by omega)
  rw [if_pos hi] at h
  have hval : (chunkNonce i false).val = bigEndian 11 i ++ [0] := rfl
  unfold incnonce
  simp only [hval, h]
  rfl

/-- The counter wraps behind its last value. -/
theorem incnonce_wrapped {i : Nat} (hi : i + 1 = 2 ^ 88) :
    (incnonce (chunkNonce i false)).2 = some ewrapped := by
  have h88 : 2 ^ 88 = 256 ^ 11 := by decide
  rw [h88] at hi
  have h := incnonceLoop_bigEndian 11 i [0] (by omega)
  rw [if_neg (by omega)] at h
  have hval : (chunkNonce i false).val = bigEndian 11 i ++ [0] := rfl
  unfold incnonce
  simp only [hval, h]

theorem marklast_chunkNonce (i : Nat) (last : Bool) :
    marklast last (chunkNonce i false) = chunkNonce i last := by
  have hlen := length_bigEndian 11 i
  cases last with
  | false => rfl
  | true =>
    ext1
    simp [marklast, chunkNonce, hlen]

/-! ## Sealing -/

/-- The chunks of a plaintext: full ones, and a last one that is empty for
the empty plaintext only. -/
def chunks (p : List UInt8) : List (List UInt8) :=
  if _h : p.length ≤ CHUNKLEN then [p] else p.take CHUNKLEN :: chunks (p.drop CHUNKLEN)
termination_by p.length
decreasing_by
  rw [List.length_drop]
  have : 0 < CHUNKLEN := by decide
  omega

theorem chunks_short {p : List UInt8} (h : p.length ≤ CHUNKLEN) : chunks p = [p] := by
  rw [chunks, dif_pos h]

theorem chunks_long {p : List UInt8} (h : CHUNKLEN < p.length) :
    chunks p = p.take CHUNKLEN :: chunks (p.drop CHUNKLEN) := by
  rw [chunks, dif_neg (by omega)]

theorem chunks_ne_nil (p : List UInt8) : chunks p ≠ [] := by
  rw [chunks]
  split <;> simp

/-- A full chunk in front of a plaintext that is not empty. -/
theorem chunks_append {a p : List UInt8} (ha : a.length = CHUNKLEN) (hp : p ≠ []) :
    chunks (a ++ p) = a :: chunks p := by
  have hpos := List.length_pos_iff.mpr hp
  rw [chunks_long (by rw [List.length_append]; omega), ← ha, List.take_left, List.drop_left]

variable (C : Crypto) (key : Bytes 32)

/-- Seal a list of chunks, the first of them with number `i`. -/
def sealFrom : Nat → List (List UInt8) → List UInt8
  | _, [] => []
  | i, [c] => C.chacha20poly1305write key (chunkNonce i true) c
  | i, c :: cs => C.chacha20poly1305write key (chunkNonce i false) c ++ sealFrom (i + 1) cs

/-- The sealed text of a plaintext of at most `2 ^ 88` chunks. -/
def STREAM (p : List UInt8) : List UInt8 := sealFrom C key 0 (chunks p)

/-- From chunk `i` on, the counter numbers the chunks of `p`. -/
def Counts (i : Nat) (p : List UInt8) : Prop := i * CHUNKLEN + p.length ≤ 2 ^ 88 * CHUNKLEN

theorem Counts.next {i : Nat} {p : List UInt8} (h : Counts i p) (hlt : CHUNKLEN < p.length) :
    i + 1 < 2 ^ 88 ∧ Counts (i + 1) (p.drop CHUNKLEN) := by
  unfold Counts at h ⊢
  rw [List.length_drop, Nat.succ_mul]
  refine ⟨?_, by omega⟩
  have hpos : 0 < CHUNKLEN := by decide
  refine Nat.lt_of_mul_lt_mul_right (a := CHUNKLEN) ?_
  rw [Nat.succ_mul]
  omega

/-- Seal chunks that others are to follow. -/
def sealMore : Nat → List (List UInt8) → List UInt8
  | _, [] => []
  | i, c :: cs => C.chacha20poly1305write key (chunkNonce i false) c ++ sealMore (i + 1) cs

theorem sealFrom_cons (i : Nat) (c : List UInt8) {cs : List (List UInt8)} (h : cs ≠ []) :
    sealFrom C key i (c :: cs) =
      C.chacha20poly1305write key (chunkNonce i false) c ++ sealFrom C key (i + 1) cs := by
  cases cs with
  | nil => exact absurd rfl h
  | cons d ds => rfl

/-- Each chunk grows by a tag. -/
theorem length_sealFrom (i : Nat) (cs : List (List UInt8)) :
    (sealFrom C key i cs).length = cs.flatten.length + TAGLEN * cs.length := by
  induction cs generalizing i with
  | nil => rfl
  | cons c cs ih =>
    by_cases h : cs = []
    · subst h
      simp [sealFrom, C.write_length]
    · rw [sealFrom_cons C key i c h, List.length_append, C.write_length, ih, List.flatten_cons,
        List.length_append, List.length_cons, Nat.mul_succ]
      omega

theorem flatten_chunks (p : List UInt8) : (chunks p).flatten = p := by
  induction p using chunks.induct with
  | case1 p hle => rw [chunks_short hle, List.flatten_cons, List.flatten_nil, List.append_nil]
  | case2 p hlt ih =>
    rw [chunks_long (by omega), List.flatten_cons, ih, List.take_append_drop]

/-! ## Opening -/

/-- The first chunk of a sealed text whose first chunk has number `i`, with
the check of a last chunk that is empty. -/
def openChunk (i : Nat) (c : List UInt8) : Option (List UInt8) :=
  if 0 < i ∧ c.length = TAGLEN then none
  else
    C.chacha20poly1305read key (chunkNonce i (c.length ≤ CHUNKLEN + TAGLEN))
      (c.take (CHUNKLEN + TAGLEN))

/-- What `pldecrypt` opens a sealed text to, from chunk `i` on. -/
inductive Opens : Nat → List UInt8 → List UInt8 → Prop
  | last {i : Nat} {c p : List UInt8} : i + 1 < 2 ^ 31 → c.length ≤ CHUNKLEN + TAGLEN →
      openChunk C key i c = some p → Opens i c p
  | more {i : Nat} {c out p : List UInt8} : i + 1 < 2 ^ 31 → CHUNKLEN + TAGLEN < c.length →
      openChunk C key i c = some out → Opens (i + 1) (c.drop (CHUNKLEN + TAGLEN)) p →
      Opens i c (out ++ p)

/-- From chunk `i` on, all chunks open up to the one that the `int` cannot
count. -/
inductive Overruns : Nat → List UInt8 → Prop
  | here {i : Nat} {c out : List UInt8} : i + 1 = 2 ^ 31 → openChunk C key i c = some out →
      Overruns i c
  | more {i : Nat} {c out : List UInt8} : i + 1 < 2 ^ 31 → CHUNKLEN + TAGLEN < c.length →
      openChunk C key i c = some out → Overruns (i + 1) (c.drop (CHUNKLEN + TAGLEN)) →
      Overruns i c

variable {C key}

theorem Opens.unique {i : Nat} {c p q : List UInt8} (hp : Opens C key i c p)
    (hq : Opens C key i c q) : p = q := by
  induction hp generalizing q with
  | last _ hlen hopen =>
    cases hq with
    | last _ _ hopen' =>
      rw [hopen] at hopen'
      exact Option.some.inj hopen'
    | more _ hlen' _ _ => omega
  | more _ hlen hopen _ ih =>
    cases hq with
    | last _ hlen' _ => omega
    | more _ _ hopen' hrest =>
      rw [hopen] at hopen'
      rw [Option.some.inj hopen', ih hrest]

theorem Opens.not_overruns {i : Nat} {c p : List UInt8} (hp : Opens C key i c p) :
    ¬ Overruns C key i c := by
  induction hp with
  | last hi hlen _ =>
    intro h
    cases h with
    | here hi' _ => omega
    | more _ hlen' _ _ => omega
  | more hi _ _ _ ih =>
    intro h
    cases h with
    | here hi' _ => omega
    | more _ _ _ hrest => exact ih hrest

/-! ## Opening and sealing -/

section

variable {i : Nat} {p : List UInt8}

/-- A sealed last chunk. -/
theorem openChunk_last (hC : C.AeadExact) (hlen : p.length ≤ CHUNKLEN) (hp : 0 < i → p ≠ []) :
    openChunk C key i (C.chacha20poly1305write key (chunkNonce i true) p) = some p := by
  have hsealed := C.write_length key (chunkNonce i true) p
  have hshort : (C.chacha20poly1305write key (chunkNonce i true) p).length ≤
      CHUNKLEN + TAGLEN := by
    omega
  rw [openChunk, if_neg]
  · rw [List.take_of_length_le hshort, decide_eq_true hshort]
    exact (hC _ _ _ _).mpr rfl
  · rintro ⟨hi, hempty⟩
    exact hp hi (List.length_eq_zero_iff.mp (by omega))

/-- A sealed full chunk in front of more. -/
theorem openChunk_full (hC : C.AeadExact) (hlen : p.length = CHUNKLEN) {more : List UInt8}
    (hmore : more ≠ []) :
    openChunk C key i (C.chacha20poly1305write key (chunkNonce i false) p ++ more) = some p := by
  have hsealed : (C.chacha20poly1305write key (chunkNonce i false) p).length =
      CHUNKLEN + TAGLEN := by
    rw [C.write_length, hlen]
  have hpos := List.length_pos_iff.mpr hmore
  have hlong : ¬ (C.chacha20poly1305write key (chunkNonce i false) p ++ more).length ≤
      CHUNKLEN + TAGLEN := by
    rw [List.length_append]
    omega
  rw [openChunk, if_neg, List.take_left' hsealed, decide_eq_false hlong]
  · exact (hC _ _ _ _).mpr rfl
  · rintro ⟨-, htag⟩
    rw [List.length_append] at htag
    omega

/-- What a last chunk was sealed from. -/
theorem eq_of_openChunk_last (hC : C.AeadExact) {c : List UInt8}
    (hlen : c.length ≤ CHUNKLEN + TAGLEN) (h : openChunk C key i c = some p) :
    c = C.chacha20poly1305write key (chunkNonce i true) p ∧ p.length ≤ CHUNKLEN ∧
      (0 < i → p ≠ []) := by
  rw [openChunk] at h
  split at h
  · cases h
  rename_i hcheck
  rw [List.take_of_length_le hlen, decide_eq_true hlen] at h
  have hc := (hC _ _ _ _).mp h
  have hsealed := C.write_length key (chunkNonce i true) p
  rw [← hc] at hsealed
  refine ⟨hc, by omega, fun hi hnil => hcheck ⟨hi, ?_⟩⟩
  rw [hsealed, hnil, List.length_nil, Nat.zero_add]

/-- What a chunk in front of more was sealed from. -/
theorem eq_of_openChunk_full (hC : C.AeadExact) {c : List UInt8}
    (hlen : CHUNKLEN + TAGLEN < c.length) (h : openChunk C key i c = some p) :
    c = C.chacha20poly1305write key (chunkNonce i false) p ++ c.drop (CHUNKLEN + TAGLEN) ∧
      p.length = CHUNKLEN := by
  rw [openChunk] at h
  split at h
  · cases h
  rw [decide_eq_false (by omega)] at h
  have hc := (hC _ _ _ _).mp h
  have hsealed := C.write_length key (chunkNonce i false) p
  rw [← hc, List.length_take] at hsealed
  refine ⟨?_, by omega⟩
  rw [← hc, List.take_append_drop]

/-- What follows a full chunk. -/
theorem rest_ne_nil (hlong : CHUNKLEN < p.length) : p.drop CHUNKLEN ≠ [] := by
  rw [← List.length_pos_iff, List.length_drop]
  omega

theorem sealFrom_ne_nil (i : Nat) (p : List UInt8) : sealFrom C key i (chunks p) ≠ [] := by
  have htag : 0 < TAGLEN := by decide
  have hcs := List.length_pos_iff.mpr (chunks_ne_nil p)
  have hmul := Nat.mul_pos htag hcs
  rw [← List.length_pos_iff, length_sealFrom]
  omega

/-- What is behind the first chunk of a sealed text. -/
theorem drop_sealed (hlen : p.length = CHUNKLEN) (more : List UInt8) :
    (C.chacha20poly1305write key (chunkNonce i false) p ++ more).drop (CHUNKLEN + TAGLEN) =
      more :=
  List.drop_left' (by rw [C.write_length, hlen])

theorem length_take_chunk (hlong : CHUNKLEN < p.length) : (p.take CHUNKLEN).length = CHUNKLEN := by
  rw [List.length_take]
  omega

/-- A sealed text that can be counted opens. -/
theorem opens_sealFrom (hC : C.AeadExact) (hcount : i + (chunks p).length < 2 ^ 31)
    (hp : 0 < i → p ≠ []) : Opens C key i (sealFrom C key i (chunks p)) p := by
  induction p using chunks.induct generalizing i with
  | case1 p hle =>
    rw [chunks_short hle] at hcount ⊢
    refine .last hcount ?_ (openChunk_last hC hle hp)
    rw [sealFrom, C.write_length]
    omega
  | case2 p hlt ih =>
    have hlong : CHUNKLEN < p.length := by omega
    have hfull := length_take_chunk hlong
    rw [chunks_long hlong, List.length_cons] at hcount
    rw [chunks_long hlong, sealFrom_cons C key i _ (chunks_ne_nil _)]
    have hrest := ih (i := i + 1) (by omega) fun _ => rest_ne_nil hlong
    have hne := @sealFrom_ne_nil C key (i + 1) (p.drop CHUNKLEN)
    have h := @Opens.more C key i _ _ (p.drop CHUNKLEN) (by omega) ?_
      (openChunk_full hC hfull hne) (by rw [drop_sealed hfull]; exact hrest)
    · rwa [List.take_append_drop] at h
    · have hpos := List.length_pos_iff.mpr hne
      rw [List.length_append, C.write_length, hfull]
      omega

/-- A sealed text of more chunks runs over. -/
theorem overruns_sealFrom (hC : C.AeadExact) (hi : i < 2 ^ 31)
    (hcount : 2 ^ 31 ≤ i + (chunks p).length) (hp : 0 < i → p ≠ []) :
    Overruns C key i (sealFrom C key i (chunks p)) := by
  induction p using chunks.induct generalizing i with
  | case1 p hle =>
    rw [chunks_short hle] at hcount ⊢
    rw [List.length_singleton] at hcount
    exact .here (by omega) (openChunk_last hC hle hp)
  | case2 p hlt ih =>
    have hlong : CHUNKLEN < p.length := by omega
    have hfull := length_take_chunk hlong
    rw [chunks_long hlong, List.length_cons] at hcount
    rw [chunks_long hlong, sealFrom_cons C key i _ (chunks_ne_nil _)]
    have hne := @sealFrom_ne_nil C key (i + 1) (p.drop CHUNKLEN)
    have hopen := @openChunk_full C key i (p.take CHUNKLEN) hC hfull _ hne
    by_cases hlast : i + 1 = 2 ^ 31
    · exact .here hlast hopen
    · refine .more (by omega) ?_ hopen ?_
      · have hpos := List.length_pos_iff.mpr hne
        rw [List.length_append, C.write_length, hfull]
        omega
      · rw [drop_sealed hfull]
        exact ih (by omega) (by omega) fun _ => rest_ne_nil hlong

/-- What a text that opens was sealed from. -/
theorem sealed_of_opens (hC : C.AeadExact) {c : List UInt8} (h : Opens C key i c p) :
    c = sealFrom C key i (chunks p) ∧ i + (chunks p).length < 2 ^ 31 ∧ (0 < i → p ≠ []) := by
  induction h with
  | @last i c p hi hlen hopen =>
    obtain ⟨hc, hp, hne⟩ := eq_of_openChunk_last hC hlen hopen
    rw [chunks_short hp]
    exact ⟨hc, hi, hne⟩
  | @more i c out p hi hlen hopen _ ih =>
    obtain ⟨hrest, hcount, hp⟩ := ih
    obtain ⟨hc, hout⟩ := eq_of_openChunk_full hC hlen hopen
    have hne : p ≠ [] := hp (Nat.succ_pos i)
    rw [chunks_append hout hne, sealFrom_cons C key i _ (chunks_ne_nil p), ← hrest,
      List.length_cons]
    exact ⟨hc, by omega, fun _ hnil => hne (List.append_eq_nil_iff.mp hnil).2⟩

/-- The texts that open to `p`: its sealing, as far as the `int` counts. -/
theorem opens_iff (hC : C.AeadExact) {c : List UInt8} :
    Opens C key 0 c p ↔ c = STREAM C key p ∧ (chunks p).length < 2 ^ 31 := by
  constructor
  · intro h
    obtain ⟨hc, hcount, -⟩ := sealed_of_opens hC h
    exact ⟨hc, by omega⟩
  · rintro ⟨rfl, hcount⟩
    exact opens_sealFrom hC (by omega) fun hi => absurd hi (Nat.lt_irrefl 0)

/-! ## Texts of too many chunks -/

theorem length_chunks_pos (p : List UInt8) : 0 < (chunks p).length :=
  List.length_pos_iff.mpr (chunks_ne_nil p)

/-- The chunk with number `2 ^ 31 - 1` is there, and all chunks so far were
sealed in their places: it is the last one, or more follows. -/
def OverlongFrom (C : Crypto) (key : Bytes 32) (i : Nat) (c : List UInt8) : Prop :=
  ∃ p, i + (chunks p).length = 2 ^ 31 ∧ (0 < i → p ≠ []) ∧
    (c = sealFrom C key i (chunks p) ∨
      (p.length = (chunks p).length * CHUNKLEN ∧
        ∃ more, more ≠ [] ∧ c = sealMore C key i (chunks p) ++ more))

theorem overlongFrom_of_overruns (hC : C.AeadExact) {c : List UInt8} (h : Overruns C key i c) :
    OverlongFrom C key i c := by
  induction h with
  | @here i c out hi hopen =>
    by_cases hlen : c.length ≤ CHUNKLEN + TAGLEN
    · obtain ⟨hc, hout, hne⟩ := eq_of_openChunk_last hC hlen hopen
      refine ⟨out, by rw [chunks_short hout]; exact hi, hne, .inl ?_⟩
      rw [chunks_short hout]
      exact hc
    · obtain ⟨hc, hout⟩ := eq_of_openChunk_full hC (by omega) hopen
      have hpos : 0 < CHUNKLEN := by decide
      have hchunks : chunks out = [out] := chunks_short (by omega)
      refine ⟨out, by rw [hchunks]; exact hi, fun _ hnil => ?_, .inr ⟨?_, ?_⟩⟩
      · rw [hnil] at hout
        rw [← hout] at hpos
        exact Nat.lt_irrefl 0 hpos
      · rw [hchunks, List.length_singleton, Nat.one_mul, hout]
      · refine ⟨c.drop (CHUNKLEN + TAGLEN), ?_, ?_⟩
        · rw [← List.length_pos_iff, List.length_drop]
          omega
        · rw [hchunks, sealMore, sealMore, List.append_nil]
          exact hc
  | @more i c out hi hlen hopen _ ih =>
    obtain ⟨p, hcount, hp, hrest⟩ := ih
    obtain ⟨hc, hout⟩ := eq_of_openChunk_full hC hlen hopen
    have hne : p ≠ [] := hp (Nat.succ_pos i)
    refine ⟨out ++ p, ?_, fun _ hnil => hne (List.append_eq_nil_iff.mp hnil).2, ?_⟩
    · rw [chunks_append hout hne, List.length_cons]
      omega
    rw [chunks_append hout hne]
    rcases hrest with hrest | ⟨hfull, more, hmore, hrest⟩
    · refine .inl ?_
      rw [sealFrom_cons C key i _ (chunks_ne_nil p), ← hrest]
      exact hc
    · refine .inr ⟨?_, more, hmore, ?_⟩
      · rw [List.length_append, List.length_cons, Nat.succ_mul, hfull, hout, Nat.add_comm]
      · rw [sealMore, List.append_assoc, ← hrest]
        exact hc

theorem overruns_of_overlongFrom (hC : C.AeadExact) {c : List UInt8}
    (h : OverlongFrom C key i c) : Overruns C key i c := by
  obtain ⟨p, hcount, hp, hc⟩ := h
  have hpos := length_chunks_pos p
  rcases hc with rfl | ⟨hfull, more, hmore, rfl⟩
  · exact overruns_sealFrom hC (by omega) (by omega) hp
  induction p using chunks.induct generalizing i with
  | case1 p hle =>
    rw [chunks_short hle, List.length_singleton, Nat.one_mul] at hfull
    rw [chunks_short hle] at hcount ⊢
    rw [sealMore, sealMore, List.append_nil]
    exact .here hcount (openChunk_full hC hfull hmore)
  | case2 p hlt ih =>
    have hlong : CHUNKLEN < p.length := by omega
    have hlen := length_take_chunk hlong
    have hdrop : (p.drop CHUNKLEN).length = p.length - CHUNKLEN := List.length_drop
    have hrest := length_chunks_pos (p.drop CHUNKLEN)
    rw [chunks_long hlong, List.length_cons, Nat.succ_mul] at hfull
    rw [chunks_long hlong, List.length_cons] at hcount
    rw [chunks_long hlong, sealMore, List.append_assoc]
    have hne : sealMore C key (i + 1) (chunks (p.drop CHUNKLEN)) ++ more ≠ [] :=
      fun hnil => hmore (List.append_eq_nil_iff.mp hnil).2
    refine .more (by omega) ?_ (openChunk_full hC hlen hne) ?_
    · have hposr := List.length_pos_iff.mpr hne
      rw [List.length_append, C.write_length, hlen]
      omega
    · rw [drop_sealed hlen]
      exact ih (by omega) (fun _ => rest_ne_nil hlong) hrest (by omega)

end

variable (C key)

/-- The text starts with `2 ^ 31` sealed chunks, as many as an `int` cannot
count: the last of them is the last of the text, or more follows. -/
def Overlong (c : List UInt8) : Prop :=
  ∃ p, (chunks p).length = 2 ^ 31 ∧
    (c = STREAM C key p ∨
      (p.length = 2 ^ 31 * CHUNKLEN ∧ ∃ more, more ≠ [] ∧ c = sealMore C key 0 (chunks p) ++ more))

variable {C key}

theorem length_sealMore (i : Nat) (cs : List (List UInt8)) :
    TAGLEN * cs.length ≤ (sealMore C key i cs).length := by
  induction cs generalizing i with
  | nil => exact Nat.zero_le _
  | cons c cs ih =>
    have hrest := ih (i + 1)
    rw [sealMore, List.length_append, C.write_length, List.length_cons, Nat.mul_succ]
    omega

/-- A text that is short enough for its chunks to be counted. -/
theorem not_overlong {c : List UInt8} (h : c.length < TAGLEN * 2 ^ 31) : ¬ Overlong C key c := by
  rintro ⟨p, hcount, rfl | ⟨-, more, -, rfl⟩⟩
  · rw [STREAM, length_sealFrom, hcount] at h
    omega
  · have hlen := @length_sealMore C key 0 (chunks p)
    rw [List.length_append] at h
    rw [hcount] at hlen
    omega

theorem overruns_iff (hC : C.AeadExact) {c : List UInt8} :
    Overruns C key 0 c ↔ Overlong C key c := by
  constructor
  · intro h
    obtain ⟨p, hcount, -, hc⟩ := overlongFrom_of_overruns hC h
    rw [Nat.zero_add] at hcount
    refine ⟨p, hcount, hc.imp_right ?_⟩
    rintro ⟨hfull, hmore⟩
    exact ⟨by rw [hfull, hcount], hmore⟩
  · rintro ⟨p, hcount, hc⟩
    refine overruns_of_overlongFrom hC ⟨p, by rw [Nat.zero_add, hcount],
      fun hi => absurd hi (Nat.lt_irrefl 0), hc.imp_right ?_⟩
    rintro ⟨hfull, hmore⟩
    exact ⟨by rw [hfull, hcount], hmore⟩

end Agecrypt
