import Agecrypt.Agec.Refine
import Agecrypt.Agec.Sink
import Agecrypt.Agec.Stream
import Agecrypt.Lib.Runs

/-!
# The loops of `payload.c` on the machine

On an input of known bytes `plencrypt` writes the `STREAM` of what it reads,
and `pldecrypt` ends with success exactly for the texts that `Opens`
describes, and writes what they open to.
-/

namespace Agecrypt

open ProgE

/-- The machine with a known input and an output. -/
def Am.at (am : Am) (s : Src) (k : Snk) : Am := { am with inp := .src s, snk := k }

theorem Am.at_self {am : Am} {s : Src} (h : am.inp = .src s) : am.at s am.snk = am := by
  rw [Am.at, ← h]

section

variable {am : Am} {s : Src} {k : Snk}

@[simp] theorem amHandler_bread (n : Nat) :
    amHandler (.rd (.bread n)) (am.at s k) = some (some (s.bread n).1, am.at (s.bread n).2 k) :=
  rfl

@[simp] theorem amHandler_bwrite (bs : List UInt8) :
    amHandler (.wr (.bwrite bs)) (am.at s k) = some (true, am.at s (k.bwrite bs)) :=
  rfl

@[simp] theorem amRd_bread (n : Nat) :
    amRd (.bread n) (am.at s k) = some (some (s.bread n).1, am.at (s.bread n).2 k) :=
  rfl

@[simp] theorem amRd_bpeek : amRd .bpeek (am.at s k) = some (s.bpeek.1, am.at s.bpeek.2 k) :=
  rfl

@[simp] theorem amRd_ibeof : amRd .ibeof (am.at s k) = some (s.eof, am.at s k) :=
  rfl

/-- A function of the input buffer, called from one of both buffers. -/
theorem runs_rd {α σ : Type} {h : Handler RwOp RwRet σ} {p : Rd α} {t t' : σ}
    {r : Except String α} :
    Runs h (Rw.rd p) t r t' ↔ Runs (fun o => h (.rd o)) p t r t' := by
  simp only [Runs, exec_rd]

theorem runs_wr {α σ : Type} {h : Handler RwOp RwRet σ} {p : Wr α} {t t' : σ}
    {r : Except String α} :
    Runs h (Rw.wr p) t r t' ↔ Runs (fun o => h (.wr o)) p t r t' := by
  simp only [Runs, exec_wr]

theorem runs_rw {α σ : Type} {h : Handler AgeOp AgeRet σ} {p : Rw α} {t t' : σ}
    {r : Except String α} :
    Runs h (Age.rw p) t r t' ↔ Runs (fun o => h (.rw o)) p t r t' := by
  simp only [Runs, exec_rw]

/-- A wrapped error is an error. -/
theorem runs_age_wrapped {σ α : Type} {t t' : σ} {a : α} {h : Handler AgeOp AgeRet σ}
    {outer : String} {p : Age α} :
    Runs h (Age.wrapped outer p) t (.ok a) t' ↔ Runs h p t (.ok a) t' := by
  unfold Age.wrapped
  constructor
  · intro hr
    obtain ⟨x, t₁, hx, hr⟩ := runs_attempt_bind.mp hr
    cases x with
    | error e =>
      rcases runs_bind.mp hr with ⟨e', -, he⟩ | ⟨e', t₂, -, hr⟩
      · cases he
      · cases (runs_throw.mp hr).1
    | ok b =>
      obtain ⟨hb, rfl⟩ := runs_pure.mp hr
      rw [hb]
      exact hx
  · exact fun hr => runs_attempt_bind.mpr ⟨.ok a, t', hr, runs_pure.mpr ⟨rfl, rfl⟩⟩

theorem runs_rw_wrapped {σ α : Type} {t t' : σ} {a : α} {h : Handler RwOp RwRet σ}
    {outer : String} {p : Rw α} :
    Runs h (Rw.wrapped outer p) t (.ok a) t' ↔ Runs h p t (.ok a) t' := by
  unfold Rw.wrapped
  constructor
  · intro hr
    obtain ⟨x, t₁, hx, hr⟩ := runs_attempt_bind.mp hr
    cases x with
    | error e =>
      obtain ⟨e', t₂, -, hr⟩ := runs_op_bind.mp hr
      cases (runs_throw.mp hr).1
    | ok b =>
      obtain ⟨hb, rfl⟩ := runs_pure.mp hr
      rw [hb]
      exact hx
  · exact fun hr => runs_attempt_bind.mpr ⟨.ok a, t', hr, runs_pure.mpr ⟨rfl, rfl⟩⟩

/-- The flag `eof` is set at the end of the input only. -/
def Src.Tight (s : Src) : Prop := s.start = none ∧ (s.eof = true → s.rest = [])

/-- A read of `n` bytes from an input whose flag `eof` is not set early. -/
theorem Src.tight_bread {n : Nat} (h : s.probe.eof = true → s.rest.length ≤ n) :
    (s.bread n).2.Tight := by
  refine ⟨rfl, fun he => ?_⟩
  simp only [Src.bread, Bool.or_eq_true, decide_eq_true_eq] at he ⊢
  rcases he with he | he
  · exact List.drop_of_length_le (h he)
  · exact List.drop_of_length_le (by omega)

/-- `ateof` sees whether there is more, and sets the flag. -/
theorem ateof_runs (hs : s.Tight) :
    Runs amRd ateof (am.at s k) (.ok (some s.rest.isEmpty))
      (am.at { s with eof := s.rest.isEmpty } k) := by
  obtain ⟨hst, heof⟩ := hs
  unfold ateof
  refine runs_op_bind.mpr ⟨s.eof, am.at s k, rfl, ?_⟩
  by_cases he : s.eof = true
  · have hrest := heof he
    rw [if_pos he, runs_pure]
    obtain ⟨past, rest, eof, start⟩ := s
    simp only at he hrest
    subst he hrest
    exact ⟨rfl, rfl⟩
  · rw [if_neg he]
    refine runs_op_bind.mpr ⟨s.bpeek.1, am.at s.bpeek.2 k, rfl, ?_⟩
    obtain ⟨past, rest, eof, start⟩ := s
    simp only at he hst
    subst hst
    obtain rfl : eof = false := by simpa using he
    rcases rest with _ | ⟨c, cs⟩
    · exact runs_pure.mpr ⟨rfl, rfl⟩
    · exact runs_pure.mpr ⟨rfl, rfl⟩

end

/-! ## Encryption -/

section

variable (C : Crypto) (key : Bytes 32)

/-- One chunk of `plencrypt`. -/
theorem plencryptChunk_runs (am : Am) (k : Snk) {s : Src} (i : Nat)
    (hs : s.probe.eof = true → s.rest.length ≤ CHUNKLEN) :
    ∃ s', s'.rest = s.rest.drop CHUNKLEN ∧ s'.Tight ∧
      s'.past = s.past ++ s.rest.take CHUNKLEN ∧
      Runs amHandler (plencryptChunk C key (chunkNonce i false, none)) (am.at s k)
        (.ok (if s.rest.length ≤ CHUNKLEN then .inr () else .inl (incnonce (chunkNonce i false))))
        (am.at s' (k.bwrite (C.chacha20poly1305write key
          (chunkNonce i (s.rest.length ≤ CHUNKLEN)) (s.rest.take CHUNKLEN)))) := by
  have htight := Src.tight_bread hs
  have hempty : ((s.bread CHUNKLEN).2.rest.isEmpty) = decide (s.rest.length ≤ CHUNKLEN) := by
    rw [Bool.eq_iff_iff]
    simp [Src.bread]
  refine ⟨{ (s.bread CHUNKLEN).2 with eof := s.rest.length ≤ CHUNKLEN }, rfl, ⟨rfl, ?_⟩, rfl, ?_⟩
  · intro he
    exact List.drop_of_length_le (by simpa using he)
  unfold plencryptChunk
  refine runs_op_bind.mpr ⟨_, _, amHandler_bread CHUNKLEN, ?_⟩
  refine (Runs.bind_ok (runs_rd.mpr (ateof_runs htight))).mpr ?_
  rw [hempty]
  simp only [marklast_chunkNonce]
  refine runs_op_bind.mpr ⟨_, _, amHandler_bwrite _, ?_⟩
  by_cases hlast : s.rest.length ≤ CHUNKLEN
  · simp [hlast, encchunk, Src.bread]
  · simp [hlast, encchunk, Src.bread]

/-- The loop of `plencrypt`, from chunk `i` on. -/
theorem plencryptLoop_runs {am : Am} {pre raw : List UInt8} (p : List UInt8) : ∀ (i : Nat)
    {s : Src} {k : Snk}, s.rest = p → (s.probe.eof = true → s.rest.length ≤ CHUNKLEN) →
    Counts i p → k.Has pre raw →
    ∃ s' k', Runs amHandler (loop (plencryptChunk C key) (chunkNonce i false, none))
        (am.at s k) (.ok ()) (am.at s' k') ∧
      s'.rest = [] ∧ k'.isarmor = k.isarmor ∧
      k'.Has pre (raw ++ sealFrom C key i (chunks p)) := by
  have hpos : 0 < CHUNKLEN := by decide
  induction p using chunks.induct generalizing raw with
  | case1 p hle =>
    rintro i s k rfl hs hi hk
    obtain ⟨s', hrest, -, -, hr⟩ := plencryptChunk_runs C key am k i hs
    simp only [hle, if_true, decide_true, List.take_of_length_le hle] at hr
    refine ⟨s', _, runs_loop.mpr (.inr (.inr ⟨_, hr, rfl⟩)), ?_, by simp, ?_⟩
    · rw [hrest, List.drop_of_length_le hle]
    · rw [chunks_short hle]
      exact hk.bwrite _
  | case2 p hlt ih =>
    rintro i s k rfl hs hi hk
    obtain ⟨s₁, hrest, ht, -, hr⟩ := plencryptChunk_runs C key am k i hs
    rw [incnonce_chunkNonce (hi.next (by omega)).1] at hr
    simp only [hlt, if_false, decide_false] at hr
    have hlen : (s.rest.drop CHUNKLEN).length = s.rest.length - CHUNKLEN := List.length_drop
    obtain ⟨s', k', hr', hnil, harm, hhas⟩ := ih (i + 1) hrest
      (fun he => by
        rw [Src.probe_of_none ht.1] at he
        rw [ht.2 he]
        exact Nat.zero_le _)
      (hi.next (by omega)).2 (hk.bwrite (C.chacha20poly1305write key (chunkNonce i false)
        (s.rest.take CHUNKLEN)))
    refine ⟨s', k', runs_loop.mpr (.inr (.inl ⟨_, _, hr, hr'⟩)), hnil, by rw [harm]; simp, ?_⟩
    rw [chunks_long (by omega), sealFrom_cons C key i _ (chunks_ne_nil _), ← List.append_assoc]
    exact hhas

/-- `plencrypt` writes the sealed text of all that it reads. -/
theorem plencrypt_runs {am : Am} {s : Src} {k : Snk} {pre raw : List UInt8}
    (hs : s.probe.eof = true → s.rest.length ≤ CHUNKLEN) (hcount : Counts 0 s.rest)
    (hk : k.Has pre raw) :
    ∃ s' k', Runs amHandler (plencrypt C key) (am.at s k) (.ok ()) (am.at s' k') ∧
      s'.rest = [] ∧ k'.isarmor = k.isarmor ∧ k'.Has pre (raw ++ STREAM C key s.rest) := by
  unfold plencrypt
  rw [← chunkNonce_zero]
  exact plencryptLoop_runs C key s.rest 0 rfl hs hcount hk

end

/-! ## Counting -/

section

variable {σ : Type} {h : Handler RdOp RdRet σ} {t t' : σ} {r : Except String Int} {i : Nat}

/-- Below the largest `int`, `i++` counts. -/
theorem runs_incint (hi : i + 1 < 2 ^ 31) :
    Runs h (incint i) t r t' ↔ r = .ok ((i + 1 : Nat) : Int) ∧ t' = t := by
  rw [incint, if_pos (by omega)]
  exact runs_pure

/-- There it has no meaning. -/
theorem not_runs_incint (hno : ∀ t, h .overflow t = none) (hi : i + 1 = 2 ^ 31) :
    ¬ Runs h (incint i) t r t' := by
  intro hr
  rw [incint, if_neg (by omega)] at hr
  obtain ⟨a, ho, -⟩ := runs_op.mp hr
  rw [hno] at ho
  cases ho

end

/-! ## A round of decryption -/

/-- The variables of `pldecrypt` in front of chunk `i`. -/
def pldecAt (i : Nat) : Pldec := ⟨chunkNonce i false, none, i⟩

theorem pldecAt_zero : pldecAt 0 = ⟨Bytes.zero 12, none, 0⟩ := by
  rw [pldecAt, chunkNonce_zero]
  rfl

/-- The end of a round that has opened a chunk. -/
def release (i : Nat) (last : Bool) (out : List UInt8) : Rw (Pldec ⊕ Unit) := do
  if ← Rw.bwrite out then do
    let n ← Rw.rd (incint i)
    return if last then .inr ()
      else .inl ⟨(incnonce (chunkNonce i last)).1, (incnonce (chunkNonce i last)).2, n⟩
  else Rw.failed

/-- `decchunk` has failed. -/
def refuse {α : Type} : Rw α := do
  Rw.eset "failed to decrypt and authenticate payload"
  Rw.failed

/-- The part of a round behind the reads. -/
def tryChunk (C : Crypto) (key : Bytes 32) (i : Nat) (last : Bool) (ichunk : List UInt8) :
    Rw (Pldec ⊕ Unit) :=
  if last ∧ (i : Int) > 0 ∧ ichunk.length = TAGLEN then throw eemptychunk
  else
    match decchunk C ichunk key (chunkNonce i last) with
    | none => refuse
    | some outbuf => release i last outbuf

/-- The reads of a round. -/
def readChunk {α : Type} (n : Nat) (f : Bool → List UInt8 → Rw α) : Rw α := do
  match ← Rw.bread n with
  | none => Rw.failed
  | some ichunk =>
    match ← Rw.rd ateof with
    | none => Rw.failed
    | some last => f last ichunk

section

variable (C : Crypto) (key : Bytes 32)

theorem pldecryptChunk_at (i : Nat) :
    pldecryptChunk C key (pldecAt i) = readChunk (CHUNKLEN + TAGLEN) (tryChunk C key i) := by
  have hnonce : ∀ last, marklast last (pldecAt i).nonce = chunkNonce i last :=
    marklast_chunkNonce i
  unfold pldecryptChunk
  simp only [hnonce]
  rfl

variable {C key} {i : Nat} {c : List UInt8}

theorem openChunk_check :
    (decide (c.length ≤ CHUNKLEN + TAGLEN) = true ∧ (i : Int) > 0 ∧
      (c.take (CHUNKLEN + TAGLEN)).length = TAGLEN) ↔ 0 < i ∧ c.length = TAGLEN := by
  have hpos : 0 < CHUNKLEN := by decide
  rw [decide_eq_true_eq, List.length_take]
  omega

/-- A chunk that does not open. -/
theorem tryChunk_none (h : openChunk C key i c = none) :
    tryChunk C key i (c.length ≤ CHUNKLEN + TAGLEN) (c.take (CHUNKLEN + TAGLEN)) =
        throw eemptychunk ∨
      tryChunk C key i (c.length ≤ CHUNKLEN + TAGLEN) (c.take (CHUNKLEN + TAGLEN)) = refuse := by
  rw [openChunk] at h
  split at h
  · rename_i hcheck
    exact .inl (if_pos (openChunk_check.mpr hcheck))
  · rename_i hcheck
    refine .inr ?_
    unfold tryChunk
    rw [if_neg (openChunk_check.not.mpr hcheck), decchunk, h]

/-- A chunk that opens. -/
theorem tryChunk_some {out : List UInt8} (h : openChunk C key i c = some out) :
    tryChunk C key i (c.length ≤ CHUNKLEN + TAGLEN) (c.take (CHUNKLEN + TAGLEN)) =
      release i (c.length ≤ CHUNKLEN + TAGLEN) out := by
  rw [openChunk] at h
  split at h
  · cases h
  · rename_i hcheck
    unfold tryChunk
    rw [if_neg (openChunk_check.not.mpr hcheck), decchunk, h]

end

/-! ## Decryption -/

section

variable {C : Crypto} {key : Bytes 32} {am : Am} {k : Snk} {s : Src} {i : Nat}

/-- A round reads the next chunk. -/
theorem runs_pldecryptChunk (hs : s.probe.eof = true → s.rest.length ≤ CHUNKLEN + TAGLEN) :
    ∃ s', s'.rest = s.rest.drop (CHUNKLEN + TAGLEN) ∧ s'.Tight ∧ ∀ r am',
      Runs amHandler (pldecryptChunk C key (pldecAt i)) (am.at s k) r am' ↔
        Runs amHandler (tryChunk C key i (s.rest.length ≤ CHUNKLEN + TAGLEN)
          (s.rest.take (CHUNKLEN + TAGLEN))) (am.at s' k) r am' := by
  obtain ⟨m, hm⟩ : ∃ m, CHUNKLEN + TAGLEN = m := ⟨_, rfl⟩
  rw [hm] at hs ⊢
  have htight := Src.tight_bread hs
  have hempty : ((s.bread m).2.rest.isEmpty) = decide (s.rest.length ≤ m) := by
    rw [Bool.eq_iff_iff]
    simp [Src.bread]
  refine ⟨{ (s.bread m).2 with eof := s.rest.length ≤ m }, rfl, ⟨rfl, fun he => ?_⟩,
    fun r am' => ?_⟩
  · exact List.drop_of_length_le (by simpa using he)
  rw [pldecryptChunk_at, hm]
  refine (runs_op_bind_of (amHandler_bread m)).trans ?_
  refine (Runs.bind_ok (runs_rd.mpr (ateof_runs htight))).trans ?_
  rw [hempty]
  exact Iff.rfl

/-- A chunk that does not open ends the run with an error. -/
theorem tryChunk_fails {c : List UInt8} (h : openChunk C key i c = none) :
    ∃ e ebuf, Runs amHandler
      (tryChunk C key i (c.length ≤ CHUNKLEN + TAGLEN) (c.take (CHUNKLEN + TAGLEN)))
      (am.at s k) (.error e) { am.at s k with ebuf } := by
  rcases tryChunk_none h with hthrow | hset
  · rw [hthrow]
    exact ⟨eemptychunk, am.ebuf, runs_throw.mpr ⟨rfl, rfl⟩⟩
  · obtain ⟨am₁, ham₁⟩ : ∃ am₁ : Am, am₁ = { am.at s k with
        ebuf := esetText "failed to decrypt and authenticate payload" } := ⟨_, rfl⟩
    rw [hset]
    refine ⟨am₁.eget, esetText "failed to decrypt and authenticate payload", ?_⟩
    rw [← ham₁]
    refine runs_op_bind.mpr ⟨(), am₁, by rw [ham₁]; rfl, ?_⟩
    exact runs_op_bind.mpr ⟨am₁.eget, am₁, rfl, runs_throw.mpr ⟨rfl, rfl⟩⟩

/-- A chunk that opens is handed on and counted. -/
theorem release_runs (hi : i + 1 < 2 ^ 31) (last : Bool) (out : List UInt8) :
    Runs amHandler (release i last out) (am.at s k)
      (.ok (if last then .inr () else .inl (pldecAt (i + 1)))) (am.at s (k.bwrite out)) := by
  have hcount : Runs (fun o => amHandler (.rd o)) (incint i) (am.at s (k.bwrite out))
      (.ok ((i + 1 : Nat) : Int)) (am.at s (k.bwrite out)) := (runs_incint hi).mpr ⟨rfl, rfl⟩
  have hcounter : i + 1 < 2 ^ 88 := by omega
  unfold release
  refine (runs_op_bind_of (amHandler_bwrite out)).mpr ?_
  rw [if_pos rfl]
  refine (Runs.bind_ok (runs_rd.mpr hcount)).mpr (runs_pure.mpr ⟨?_, rfl⟩)
  cases last with
  | true => rw [if_pos rfl, if_pos rfl]
  | false =>
    rw [if_neg Bool.false_ne_true, if_neg Bool.false_ne_true, incnonce_chunkNonce hcounter,
      pldecAt]

/-- The chunk that the `int` cannot count has no outcome. -/
theorem not_runs_release (hi : i + 1 = 2 ^ 31) (last : Bool) (out : List UInt8)
    (r : Except String (Pldec ⊕ Unit)) (am' : Am) :
    ¬ Runs amHandler (release i last out) (am.at s k) r am' := by
  intro hr
  have hno : ∀ {r t t'}, ¬ Runs (fun o => amHandler (.rd o)) (incint i) t r t' :=
    not_runs_incint (fun _ => rfl) hi
  unfold release at hr
  obtain ⟨ok, t, ho, hr⟩ := runs_op_bind.mp hr
  obtain ⟨rfl, rfl⟩ := Prod.mk.inj (Option.some.inj ho)
  rcases runs_bind.mp hr with ⟨e, he, -⟩ | ⟨n, t, hn, -⟩
  · exact hno (runs_rd.mp he)
  · exact hno (runs_rd.mp hn)

/-- The ways in which a run of `pldecrypt` can go on from chunk `i`: it
succeeds, it fails, or so many chunks open that it has no outcome. -/
inductive Goes (C : Crypto) (key : Bytes 32) (p : Rw Unit) (am : Am) (s : Src) (k : Snk)
    (pre raw : List UInt8) (i : Nat) : Prop
  | opens {s' : Src} {k' : Snk} {out : List UInt8} :
      Runs amHandler p (am.at s k) (.ok ()) (am.at s' k') →
      k'.isarmor = k.isarmor → Opens C key i s.rest out → k'.Has pre (raw ++ out) →
      Goes C key p am s k pre raw i
  | fails {e : String} {am' : Am} : Runs amHandler p (am.at s k) (.error e) am' →
      (∀ out, ¬ Opens C key i s.rest out) → ¬ Overruns C key i s.rest →
      Goes C key p am s k pre raw i
  | overruns : (∀ r am', ¬ Runs amHandler p (am.at s k) r am') → Overruns C key i s.rest →
      Goes C key p am s k pre raw i

/-- A chunk that does not open, or that the `int` cannot count, decides how
the loop goes on. -/
theorem Opens.some_of {c p : List UInt8} (h : Opens C key i c p) :
    i + 1 < 2 ^ 31 ∧ openChunk C key i c ≠ none := by
  cases h with
  | last hi _ hopen => exact ⟨hi, by rw [hopen]; exact Option.some_ne_none _⟩
  | more hi _ hopen _ => exact ⟨hi, by rw [hopen]; exact Option.some_ne_none _⟩

theorem Overruns.some_of {c : List UInt8} (h : Overruns C key i c) :
    openChunk C key i c ≠ none := by
  cases h with
  | here _ hopen => rw [hopen]; exact Option.some_ne_none _
  | more _ _ hopen _ => rw [hopen]; exact Option.some_ne_none _

/-- How the loop goes on behind a chunk that is not the last. -/
theorem Goes.more {out : List UInt8} {s₁ : Src} {pre raw : List UInt8} (hi : i + 1 < 2 ^ 31)
    (hlong : CHUNKLEN + TAGLEN < s.rest.length) (hopen : openChunk C key i s.rest = some out)
    (hrest : s₁.rest = s.rest.drop (CHUNKLEN + TAGLEN))
    (hround : Runs amHandler (pldecryptChunk C key (pldecAt i)) (am.at s k)
      (.ok (.inl (pldecAt (i + 1)))) (am.at s₁ (k.bwrite out)))
    (hg : Goes C key (loop (pldecryptChunk C key) (pldecAt (i + 1))) am s₁ (k.bwrite out) pre
      (raw ++ out) (i + 1)) :
    Goes C key (loop (pldecryptChunk C key) (pldecAt i)) am s k pre raw i := by
  cases hg with
  | opens hr harm hp hhas =>
    rw [hrest] at hp
    rw [List.append_assoc] at hhas
    exact .opens ((Runs.loop_next hround).mpr hr) (by rw [harm]; simp) (.more hi hlong hopen hp)
      hhas
  | fails hr hno hnot =>
    rw [hrest] at hno hnot
    refine .fails ((Runs.loop_next hround).mpr hr) (fun p hp => ?_) fun hover => ?_
    · cases hp with
      | last _ hlen _ => omega
      | more _ _ _ hp => exact hno _ hp
    · cases hover with
      | here hi' _ => omega
      | more _ _ _ hover => exact hnot hover
  | overruns hr hover =>
    rw [hrest] at hover
    refine .overruns (fun r am' hloop => ?_) (.more hi hlong hopen hover)
    exact hr r am' ((Runs.loop_next hround).mp hloop)

/-- The loop of `pldecrypt` from chunk `i` on. -/
theorem pldecryptLoop_runs {pre : List UInt8} (n : Nat) : ∀ (i : Nat) {s : Src} {k : Snk}
    {raw : List UInt8}, s.rest.length ≤ n →
    (s.probe.eof = true → s.rest.length ≤ CHUNKLEN + TAGLEN) → i < 2 ^ 31 → k.Has pre raw →
    Goes C key (loop (pldecryptChunk C key) (pldecAt i)) am s k pre raw i := by
  have hpos : 0 < CHUNKLEN + TAGLEN := by decide
  induction n using Nat.strongRecOn with
  | _ n ih =>
    intro i s k raw hn hs hi hk
    obtain ⟨s₁, hrest, ht, hround⟩ := @runs_pldecryptChunk C key am k s i hs
    rcases hopen : openChunk C key i s.rest with _ | out
    · obtain ⟨e, ebuf, hr⟩ := @tryChunk_fails C key am k s₁ i _ hopen
      exact .fails (runs_loop.mpr (.inl ⟨e, (hround _ _).mpr hr, rfl⟩))
        (fun p hp => hp.some_of.2 hopen) fun hover => hover.some_of hopen
    rw [tryChunk_some hopen] at hround
    by_cases hcount : i + 1 = 2 ^ 31
    · refine .overruns (not_runs_loop fun r am' hr => ?_) (.here hcount hopen)
      exact not_runs_release hcount _ _ _ _ ((hround r am').mp hr)
    have hi' : i + 1 < 2 ^ 31 := by omega
    have hr := (hround _ _).mpr (release_runs hi' _ out)
    by_cases hlast : s.rest.length ≤ CHUNKLEN + TAGLEN
    · rw [if_pos (decide_eq_true hlast)] at hr
      exact .opens (runs_loop.mpr (.inr (.inr ⟨(), hr, rfl⟩))) (by simp)
        (.last hi' hlast hopen) (hk.bwrite out)
    · rw [if_neg (by rw [decide_eq_false hlast]; exact Bool.false_ne_true)] at hr
      have hlen : s₁.rest.length = s.rest.length - (CHUNKLEN + TAGLEN) := by
        rw [hrest, List.length_drop]
      have hs₁ : s₁.probe.eof = true → s₁.rest.length ≤ CHUNKLEN + TAGLEN := by
        intro he
        rw [Src.probe_of_none ht.1] at he
        rw [ht.2 he]
        exact Nat.zero_le _
      exact .more hi' (by omega) hopen hrest hr
        (ih s₁.rest.length (by omega) (i + 1) (Nat.le_refl _) hs₁ hi' (hk.bwrite out))

/-- `pldecrypt` on the machine. -/
theorem pldecrypt_runs {pre raw : List UInt8}
    (hs : s.probe.eof = true → s.rest.length ≤ CHUNKLEN + TAGLEN) (hk : k.Has pre raw) :
    Goes C key (pldecrypt C key) am s k pre raw 0 := by
  unfold pldecrypt
  rw [← pldecAt_zero]
  exact pldecryptLoop_runs s.rest.length 0 (Nat.le_refl _) hs (by omega) hk

end

end Agecrypt
