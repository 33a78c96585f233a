import Agecrypt.Agec.Device

/-!
# `payload.c` over descriptors

On a binary input that no call fails on, `plencrypt` sends the `STREAM` of
what it reads, and `pldecrypt` undoes it.  Its chunk counter is an `int`:
a payload of `2 ^ 31` chunks or more, that the nonce could still number, has
no defined outcome.
-/

namespace Agecrypt

open ProgE

/-! ## A run without failures is a run of the machine -/

section

variable {δ : Type} [Descr δ] {ch : Chan δ}

/-- On a steady system with room no call fails. -/
theorem steady_stable (ch : Chan δ) (hroom : ∀ n, ch.room n) (n : Nat) :
    Stable ch.fi ch.fo (fun d => ch.live d ∧ ch.steady d ∧ ch.fails d = n) where
  ageread := by
    intro d k r d' h hk hr
    cases r with
    | none =>
      obtain ⟨-, -, -, -, hno⟩ := ch.read_fail h.1 hr
      exact absurd h.2.1 hno
    | some bs =>
      obtain ⟨-, -, -, -, -, -, he, hl, hs, -⟩ := ch.read_ok h.1 hk hr
      exact ⟨hl, hs h.2.1, he.trans h.2.2⟩
  agewrite := by
    intro d bs r d' h hne hr
    cases r with
    | none =>
      obtain ⟨-, -, -, hno⟩ := ch.write_fail h.1 hr
      exact absurd ⟨h.2.1, hroom _⟩ hno
    | some k =>
      obtain ⟨-, -, -, -, -, -, he, hl, hs, -⟩ := ch.write_ok h.1 hne hr
      exact ⟨hl, hs h.2.1, he.trans h.2.2⟩
  alloc := by
    intro d k r d' h hr
    obtain ⟨-, -, -, -, -, he, hl, hs, -⟩ := ch.alloc_ok h.1 hr
    exact ⟨hl, hs h.2.1, he.trans h.2.2⟩
  randombuf := by
    intro d k r d' h hr
    obtain ⟨-, -, -, -, -, he, hl, hs, -⟩ := ch.random_ok h.1 hr
    exact ⟨hl, hs h.2.1, he.trans h.2.2⟩

theorem machine_of_runs {α : Type} {p : Rw α} {r : Except String α} {io io' : Io δ} {am : Am}
    (hroom : ∀ n, ch.room n) (hrel : Rel ch io am) (hst : ch.steady io.dev)
    (h : Runs rwHandler p io r io') :
    ∃ am', Runs amHandler p am r am' ∧ Rel ch io' am' := by
  have hstays : Stays ch.fi ch.fo
      (fun d => ch.live d ∧ ch.steady d ∧ ch.fails d = ch.fails io.dev) io' := by
    refine Runs.invariant (fun o s r s' hs ho => ?_) h ⟨⟨hrel.live, hst, rfl⟩, hrel.fi, hrel.snk.fd⟩
    exact rwHandler_stable (steady_stable ch hroom _) o hs r s' ho
  have hgood : ¬ Broken ch (ch.fails io.dev) io' := by
    intro hb
    have hmore := hb.dev.2
    have hsame := hstays.dev.2.2
    omega
  obtain ⟨am', hr, hrel', -⟩ := h.simulation (concrete_simulates ch (ch.fails io.dev))
    ⟨hrel, rfl⟩ hgood
  exact ⟨am', hr, hrel'⟩

end

/-! ## What a run sends -/

/-- The program succeeds, and after a flush the output has received `bs`. -/
def Sends (p : Rw Unit) (io : Io Dev) (bs : List UInt8) : Prop :=
  ∃ io₁ io₂, Runs rwHandler p io (.ok ()) io₁ ∧ bflush io₁ = some (true, io₂) ∧
    io₂.dev.out = io.dev.out ++ bs

section

variable {fi fo : Int} {io : Io Dev} {am am' : Am} {p : Rw Unit}

/-- A run of the machine is a run over descriptors on which no call fails. -/
theorem runs_of_machine {α : Type} {p : Rw α} {r : Except String α}
    (hrel : Rel (devChan fi fo True) io am) (hst : (devChan fi fo True).steady io.dev)
    (h : Runs amHandler p am r am') :
    ∃ io', Runs rwHandler p io r io' ∧ Rel (devChan fi fo True) io' am' ∧
      (devChan fi fo True).steady io'.dev := by
  obtain ⟨io', hr, hrel', hst'⟩ :=
    h.simulation (machine_simulates (devChan fi fo True)) ⟨hrel, hst⟩ trivial
  exact ⟨io', hr, hrel', hst'⟩

theorem sends_of_machine (hrel : Rel (devChan fi fo True) io am)
    (hst : (devChan fi fo True).steady io.dev) (h : Runs amHandler p am (.ok ()) am')
    {raw : List UInt8} (hhas : am'.snk.Has io.dev.out raw) :
    Sends p io (Snk.text am'.snk.isarmor raw) := by
  obtain ⟨io₁, hr, hrel₁, hst₁⟩ := runs_of_machine hrel hst h
  obtain ⟨ok, io₂, hflush, -, ho⟩ := bflush_spec hrel₁.live hrel₁.snk
  rcases ho with ⟨-, -, hn⟩ | ⟨rfl, -, hsnk⟩
  · exact absurd ⟨hst₁, trivial⟩ hn
  · exact ⟨io₁, io₂, hr, hflush, hsnk.sent.trans hhas.bflush.1⟩

/-- One program has one outcome. -/
theorem Sends.eq {bs bs' : List UInt8} (h : Sends p io bs) (h' : Sends p io bs') : bs = bs' := by
  obtain ⟨io₁, io₂, hr, hf, hout⟩ := h
  obtain ⟨io₁', io₂', hr', hf', hout'⟩ := h'
  obtain ⟨-, rfl⟩ := hr.unique hr'
  rw [hf] at hf'
  obtain ⟨-, rfl⟩ := Prod.mk.inj (Option.some.inj hf')
  exact List.append_cancel_left (hout.symm.trans hout')

theorem not_sends_of_machine (hrel : Rel (devChan fi fo True) io am)
    (hst : (devChan fi fo True).steady io.dev) {e : String}
    (h : Runs amHandler p am (.error e) am') (bs : List UInt8) : ¬ Sends p io bs := by
  rintro ⟨io₁, io₂, hr, -⟩
  obtain ⟨io', hr', -⟩ := runs_of_machine hrel hst h
  cases (hr.unique hr').1

/-- What has no outcome on the machine has none over descriptors. -/
theorem not_runs_of_machine (hrel : Rel (devChan fi fo True) io am)
    (hst : (devChan fi fo True).steady io.dev) (h : ∀ r am', ¬ Runs amHandler p am r am')
    (r : Except String Unit) (io' : Io Dev) : ¬ Runs rwHandler p io r io' := by
  intro hr
  obtain ⟨am', hr', -⟩ := machine_of_runs (fun _ => trivial) hrel hst hr
  exact h r am' hr'

end

/-- Behind any calls on a binary input the state is one of the machine. -/
theorem readCalls_rel (calls : List ReadCall) (m : Memory) (fi fo : Int)
    (recording isarmor : Bool) (dev : Dev) (hreads : dev.Reads) (hwrites : dev.Writes)
    (hbin : ¬ armorfirst <+: dev.inp) :
    ∃ io am s, readCalls calls (m.start fi fo recording isarmor dev) =
        some ((answers calls dev.inp).1, io) ∧
      Rel (devChan fi fo True) io am ∧ (devChan fi fo True).steady io.dev ∧ am.inp = .src s ∧
      s.rest = (answers calls dev.inp).2 ∧ s.Probed ∧ am.snk = ⟨isarmor, dev.out, []⟩ ∧
      io.dev.out = dev.out := by
  have hst : (devChan fi fo True).steady dev := ⟨hreads, fun _ => hwrites⟩
  have hstart := srcRel_start (devChan fi fo True) m fi fo recording isarmor hbin
  obtain ⟨io, h, hfr, hr⟩ := @readCalls_spec _ _ _ (binaryFeed (devChan fi fo True)) calls
    (m.start fi fo recording isarmor dev) _ trivial hst rfl hstart
  have hans := (Src.binary dev.inp).calls_answers calls
  rw [show (Src.binary dev.inp).rest = dev.inp from rfl] at hans
  obtain ⟨s, hs⟩ : ∃ s, s = ((Src.binary dev.inp).calls calls).2 := ⟨_, rfl⟩
  rw [show (devChan fi fo True).unread dev = dev.inp from rfl, ← hs] at hr
  rw [hans, ← hs]
  have hout : io.dev.out = dev.out := hfr.accepted
  have hob : io.ob = ⟨fo, 0, isarmor, m.ob⟩ := hfr.ob
  have hsnk : SnkRel (devChan fi fo True) io ⟨isarmor, dev.out, []⟩ := by
    refine ⟨by rw [hob]; rfl, by rw [hob], by rw [hob]; exact cap_pos _, ?_, hout⟩
    rw [hob]
    exact Bytes.window_self _ 0
  refine ⟨io, ⟨.src s, ⟨isarmor, dev.out, []⟩, io.dev.draws, io.ebuf, Descr.strerror io.dev⟩, s, h,
    ⟨trivial, .inl trivial, hfr.fd, .src (binaryFeed _) trivial hr, hsnk, rfl, rfl, rfl⟩,
    hfr.kept.steady hst, rfl, rfl, ?_, rfl, hout⟩
  rw [hs]
  exact Src.calls_invariant Src.probed_call calls (Src.probed_binary dev.inp)

/-! ## The number of chunks -/

theorem length_le_chunks (p : List UInt8) : p.length ≤ (chunks p).length * CHUNKLEN := by
  induction p using chunks.induct with
  | case1 p hle =>
    rw [chunks_short hle, List.length_singleton, Nat.one_mul]
    exact hle
  | case2 p hlt ih =>
    rw [List.length_drop] at ih
    rw [chunks_long (by omega), List.length_cons, Nat.succ_mul]
    omega

theorem counts_of_chunks {p : List UInt8} (h : (chunks p).length ≤ 2 ^ 88) : Counts 0 p := by
  have hlen := length_le_chunks p
  have hmul := Nat.mul_le_mul_right CHUNKLEN h
  rw [Counts, Nat.zero_mul, Nat.zero_add]
  exact Nat.le_trans hlen hmul

theorem length_STREAM (C : Crypto) (key : Bytes 32) (p : List UInt8) :
    (STREAM C key p).length = p.length + TAGLEN * (chunks p).length := by
  rw [STREAM, length_sealFrom, flatten_chunks]

/-- Full chunks and no other. -/
theorem length_chunks {p : List UInt8} (hne : p ≠ []) (hmod : p.length % CHUNKLEN = 0) :
    (chunks p).length = p.length / CHUNKLEN := by
  have hpos : 0 < CHUNKLEN := by decide
  induction p using chunks.induct with
  | case1 p hle =>
    have hp := List.length_pos_iff.mpr hne
    rw [← Nat.dvd_iff_mod_eq_zero] at hmod
    have hlen : p.length = CHUNKLEN := Nat.le_antisymm hle (Nat.le_of_dvd hp hmod)
    rw [chunks_short hle, List.length_singleton, hlen, Nat.div_self hpos]
  | case2 p hgt ih =>
    have hlen : (p.drop CHUNKLEN).length = p.length - CHUNKLEN := List.length_drop
    have hne' : p.drop CHUNKLEN ≠ [] := by
      rw [← List.length_pos_iff]
      omega
    have hmod' : (p.drop CHUNKLEN).length % CHUNKLEN = 0 := by
      rw [hlen, ← Nat.mod_eq_sub_mod (by omega)]
      exact hmod
    have hdiv := Nat.div_eq_sub_div hpos (Nat.le_of_not_le hgt)
    rw [chunks_long (by omega), List.length_cons, ih hne' hmod', hlen, hdiv]

/-! ## Both directions -/

/-- The armored text says what it was made of. -/
theorem Snk.text_inj {isarmor : Bool} {p q : List UInt8}
    (h : Snk.text isarmor p = Snk.text isarmor q) : p = q := by
  cases isarmor with
  | false => exact h
  | true =>
    have hne : ∀ {r : List UInt8}, base64encode r true ≠ [] := by
      intro r
      rw [base64encode_eq]
      exact b64Text_ne_nil 0 r
    simp only [Snk.text, if_true, armorText] at h
    split at h
    · rename_i hp
      split at h
      · rename_i hq
        rw [hp, hq]
      · exact absurd h.symm hne
    · split at h
      · exact absurd h hne
      · have hdec := congrArg (base64decode · true) h
        simp only [base64decode_encode] at hdec
        exact Option.some.inj hdec

/-- What the payload functions are to do on an input that delivers `d`:
`plencrypt` sends the `STREAM` of `d`, and `pldecrypt` has an outcome and
sends `p` exactly when `d` is the `STREAM` of `p`. -/
def Streams (C : Crypto) (key : Bytes 32) (d : List UInt8) (io : Io Dev) : Prop :=
  ((chunks d).length < 2 ^ 88 →
      Sends (plencrypt C key) io (Snk.text io.ob.isarmor (STREAM C key d))) ∧
    (∃ r io', Runs rwHandler (pldecrypt C key) io r io') ∧
    ∀ p, (chunks p).length < 2 ^ 88 →
      (Sends (pldecrypt C key) io (Snk.text io.ob.isarmor p) ↔ d = STREAM C key p)

section

variable {C : Crypto} {key : Bytes 32} {fi fo : Int} {io : Io Dev} {am : Am} {s : Src}

/-- `plencrypt` from a state of the machine. -/
theorem sends_plencrypt (hrel : Rel (devChan fi fo True) io am)
    (hst : (devChan fi fo True).steady io.dev) (hinp : am.inp = .src s) (hs : s.Probed)
    (hhas : am.snk.Has io.dev.out []) (hcount : (chunks s.rest).length < 2 ^ 88) :
    Sends (plencrypt C key) io (Snk.text am.snk.isarmor (STREAM C key s.rest)) := by
  have hat := Am.at_self hinp
  have hlong : 35 ≤ CHUNKLEN := by decide
  have hshort : s.probe.eof = true → s.rest.length ≤ CHUNKLEN := by
    intro he
    have := hs he
    omega
  obtain ⟨s', k', hr, -, harm, hhas'⟩ :=
    plencrypt_runs C key hshort (counts_of_chunks (Nat.le_of_lt hcount)) hhas
  rw [hat] at hr
  have h := sends_of_machine hrel hst hr hhas'
  rw [← harm]
  exact h

/-- `pldecrypt` from a state of the machine. -/
theorem pldecrypt_goes (hs : s.Probed) (hhas : am.snk.Has io.dev.out []) :
    Goes C key (pldecrypt C key) am s am.snk io.dev.out [] 0 := by
  have hlong : 35 ≤ CHUNKLEN + TAGLEN := by decide
  have hshort : s.probe.eof = true → s.rest.length ≤ CHUNKLEN + TAGLEN := by
    intro he
    have := hs he
    omega
  exact pldecrypt_runs hshort hhas

theorem sends_pldecrypt_iff (hrel : Rel (devChan fi fo True) io am)
    (hst : (devChan fi fo True).steady io.dev) (hinp : am.inp = .src s) (hs : s.Probed)
    (hhas : am.snk.Has io.dev.out []) (p : List UInt8) :
    Sends (pldecrypt C key) io (Snk.text am.snk.isarmor p) ↔ Opens C key 0 s.rest p := by
  have hat := Am.at_self hinp
  cases @pldecrypt_goes C key io am s hs hhas with
  | @opens s' k' q hr harm hq hhas' =>
    rw [hat] at hr
    have h := sends_of_machine hrel hst hr hhas'
    have harm' : (am.at s' k').snk.isarmor = am.snk.isarmor := harm
    rw [harm', List.nil_append] at h
    constructor
    · intro hp
      rw [Snk.text_inj (hp.eq h)]
      exact hq
    · intro hp
      rw [hp.unique hq]
      exact h
  | fails hr hno _ =>
    rw [hat] at hr
    exact ⟨fun h => absurd h (not_sends_of_machine hrel hst hr _), fun h => absurd h (hno p)⟩
  | overruns hr hover =>
    rw [hat] at hr
    constructor
    · rintro ⟨io₁, _, hrun, -⟩
      exact absurd hrun (not_runs_of_machine hrel hst hr _ _)
    · exact fun hp => absurd hover hp.not_overruns

/-- `pldecrypt` has an outcome unless it counts too many chunks. -/
theorem pldecrypt_ends_iff (hrel : Rel (devChan fi fo True) io am)
    (hst : (devChan fi fo True).steady io.dev) (hinp : am.inp = .src s) (hs : s.Probed)
    (hhas : am.snk.Has io.dev.out []) :
    (∃ r io', Runs rwHandler (pldecrypt C key) io r io') ↔ ¬ Overruns C key 0 s.rest := by
  have hat := Am.at_self hinp
  cases @pldecrypt_goes C key io am s hs hhas with
  | opens hr _ hq _ =>
    rw [hat] at hr
    obtain ⟨io', hrun, -⟩ := runs_of_machine hrel hst hr
    exact iff_of_true ⟨_, io', hrun⟩ hq.not_overruns
  | fails hr _ hnot =>
    rw [hat] at hr
    obtain ⟨io', hrun, -⟩ := runs_of_machine hrel hst hr
    exact iff_of_true ⟨_, io', hrun⟩ hnot
  | overruns hr hover =>
    rw [hat] at hr
    refine iff_of_false ?_ fun hnot => hnot hover
    rintro ⟨r, io', hrun⟩
    exact not_runs_of_machine hrel hst hr r io' hrun

/-- A state of the machine from which the payload functions are run. -/
theorem streams_iff_machine (hC : C.AeadExact) (hrel : Rel (devChan fi fo True) io am)
    (hst : (devChan fi fo True).steady io.dev) (hinp : am.inp = .src s) (hs : s.Probed)
    (hhas : am.snk.Has io.dev.out []) : Streams C key s.rest io ↔ ¬ Overlong C key s.rest := by
  have harm : io.ob.isarmor = am.snk.isarmor := hrel.snk.isarmor
  have hends := @pldecrypt_ends_iff C key fi fo io am s hrel hst hinp hs hhas
  rw [overruns_iff hC] at hends
  unfold Streams
  rw [harm, hends]
  constructor
  · exact fun h => h.2.1
  · intro hnot
    refine ⟨sends_plencrypt hrel hst hinp hs hhas, hnot, fun p _ => ?_⟩
    rw [sends_pldecrypt_iff hrel hst hinp hs hhas p, opens_iff hC]
    constructor
    · exact fun h => h.1
    · intro hd
      refine ⟨hd, Nat.lt_of_not_le fun hlong => hnot ?_⟩
      rw [← overruns_iff hC, hd]
      exact overruns_sealFrom hC (by decide) (by omega) fun hi => absurd hi (Nat.lt_irrefl 0)

end

/-- Whatever the short reads and writes: the payload functions do what they
are to do, unless the input starts with `2 ^ 31` sealed chunks. -/
theorem streams_iff (C : Crypto) (hC : C.AeadExact) (key : Bytes 32) (calls : List ReadCall)
    (m : Memory) (fi fo : Int) (recording isarmor : Bool) (dev : Dev) (hreads : dev.Reads)
    (hwrites : dev.Writes) (hbin : ¬ armorfirst <+: dev.inp) :
    ∃ io, readCalls calls (m.start fi fo recording isarmor dev) =
        some ((answers calls dev.inp).1, io) ∧
      (Streams C key (answers calls dev.inp).2 io ↔
        ¬ Overlong C key (answers calls dev.inp).2) := by
  obtain ⟨io, am, s, h, hrel, hst, hinp, hrest, hs, hsnk, hout⟩ :=
    readCalls_rel calls m fi fo recording isarmor dev hreads hwrites hbin
  have hhas : am.snk.Has io.dev.out [] := by
    rw [hout, hsnk]
    exact Snk.has_nil rfl
  refine ⟨io, h, ?_⟩
  rw [← hrest]
  exact streams_iff_machine hC hrel hst hinp hs hhas

/-- The sample primitives keep the first byte of a plaintext. -/
theorem stream_cons (key : Bytes 32) (b : UInt8) (p : List UInt8) :
    ∃ cs, STREAM Crypto.sample key (b :: p) = b :: cs := by
  by_cases hle : (b :: p).length ≤ CHUNKLEN
  · rw [STREAM, chunks_short hle, sealFrom]
    exact ⟨_, rfl⟩
  · have htake : (b :: p).take CHUNKLEN = b :: p.take (64 * 1024 - 1) := List.take_succ_cons
    rw [STREAM, chunks_long (by omega), sealFrom_cons _ _ _ _ (chunks_ne_nil _), htake]
    exact ⟨_, rfl⟩

/-- Such a text is no armored one. -/
theorem stream_binary (key : Bytes 32) {b : UInt8} (p : List UInt8) (hb : b ≠ 45) :
    ¬ armorfirst <+: STREAM Crypto.sample key (b :: p) := by
  obtain ⟨cs, hcs⟩ := stream_cons key b p
  rw [hcs]
  intro hp
  exact hb (List.cons_prefix_cons.mp hp).1.symm

/-- Two full chunks and a short one. -/
def threeChunks : List UInt8 :=
  List.replicate CHUNKLEN 1 ++ (List.replicate CHUNKLEN 2 ++ List.replicate 500 3)

theorem chunks_threeChunks : chunks threeChunks =
    [List.replicate CHUNKLEN 1, List.replicate CHUNKLEN 2, List.replicate 500 3] := by
  have hshort : (List.replicate 500 (3 : UInt8)).length ≤ CHUNKLEN := by
    rw [List.length_replicate]
    decide
  have hne : List.replicate 500 (3 : UInt8) ≠ [] := List.cons_ne_nil _ _
  have hne' : List.replicate CHUNKLEN (2 : UInt8) ++ List.replicate 500 3 ≠ [] :=
    List.append_ne_nil_of_right_ne_nil _ hne
  rw [threeChunks, chunks_append List.length_replicate hne',
    chunks_append List.length_replicate hne, chunks_short hshort]

theorem length_stream_threeChunks (C : Crypto) (key : Bytes 32) :
    (STREAM C key threeChunks).length < TAGLEN * 2 ^ 31 := by
  have hchunks : (chunks threeChunks).length = 3 := by
    rw [chunks_threeChunks]
    rfl
  have hlen : threeChunks.length = CHUNKLEN + (CHUNKLEN + 500) := by
    rw [threeChunks, List.length_append, List.length_append, List.length_replicate,
      List.length_replicate, List.length_replicate]
  rw [length_STREAM, hchunks, hlen, CHUNKLEN, TAGLEN]
  omega

/-- Its sealed text, on an input that never fails. -/
theorem streams_iff_three :
    ∃ io, readCalls [] (Memory.zero.start 3 4 false false
          (Dev.steady (STREAM Crypto.sample (Bytes.zero 32) threeChunks) 0)) = some ([], io) ∧
      Streams Crypto.sample (Bytes.zero 32) (STREAM Crypto.sample (Bytes.zero 32) threeChunks)
        io := by
  obtain ⟨io, h, hstreams⟩ := streams_iff Crypto.sample Crypto.sample_exact (Bytes.zero 32) []
    Memory.zero 3 4 false false (Dev.steady (STREAM Crypto.sample (Bytes.zero 32) threeChunks) 0)
    (fun _ h => Event.noConfusion h) (fun _ h => Event.noConfusion h)
    (stream_binary _ _ (by decide))
  exact ⟨io, h, hstreams.mpr (not_overlong (length_stream_threeChunks _ _))⟩

/-! ## The text without an outcome -/

/-- As many full chunks as the `int` cannot count. -/
def longPlaintext : List UInt8 := List.replicate (2 ^ 31 * CHUNKLEN) 0

theorem length_chunks_longPlaintext : (chunks longPlaintext).length = 2 ^ 31 := by
  have hpos : 0 < CHUNKLEN := by decide
  have hlen : longPlaintext.length = 2 ^ 31 * CHUNKLEN := List.length_replicate
  have hne : longPlaintext ≠ [] := by
    rw [← List.length_pos_iff, hlen]
    exact Nat.mul_pos (by decide) hpos
  rw [length_chunks hne (by rw [hlen, Nat.mul_mod_left]), hlen, Nat.mul_div_cancel _ hpos]

/-- `pldecrypt` has no outcome on the `STREAM` of `longPlaintext`. -/
theorem streams_fails :
    ¬ ∀ (C : Crypto), C.AeadExact → ∀ (key : Bytes 32) (calls : List ReadCall) (m : Memory)
      (fi fo : Int) (recording isarmor : Bool) (dev : Dev), dev.Reads → dev.Writes →
      ¬ armorfirst <+: dev.inp →
      ∃ io, readCalls calls (m.start fi fo recording isarmor dev) =
          some ((answers calls dev.inp).1, io) ∧
        Streams C key (answers calls dev.inp).2 io := by
  intro hall
  obtain ⟨c, hc⟩ : ∃ c, c = STREAM Crypto.sample (Bytes.zero 32) longPlaintext := ⟨_, rfl⟩
  have hbin : ¬ armorfirst <+: (Dev.steady c 0).inp := by
    have hcons : longPlaintext = 0 :: List.replicate (2 ^ 31 * CHUNKLEN - 1) 0 := by
      rw [← List.replicate_succ, Nat.sub_add_cancel (Nat.mul_pos (by decide) (by decide)),
        longPlaintext]
    rw [hc, hcons]
    exact stream_binary _ _ (by decide)
  have hreads : (Dev.steady c 0).Reads := fun _ h => Event.noConfusion h
  have hwrites : (Dev.steady c 0).Writes := fun _ h => Event.noConfusion h
  obtain ⟨io, h, hstreams⟩ := hall Crypto.sample Crypto.sample_exact (Bytes.zero 32) [] Memory.zero
    3 4 false false (Dev.steady c 0) hreads hwrites hbin
  obtain ⟨io', am, s, h', hrel, hst, hinp, hrest, hs, hsnk, hout⟩ :=
    readCalls_rel [] Memory.zero 3 4 false false (Dev.steady c 0) hreads hwrites hbin
  rw [h] at h'
  obtain ⟨-, rfl⟩ := Prod.mk.inj (Option.some.inj h')
  have hhas : am.snk.Has io.dev.out [] := by
    rw [hout, hsnk]
    exact Snk.has_nil rfl
  rw [← hrest] at hstreams
  refine (streams_iff_machine Crypto.sample_exact hrel hst hinp hs hhas).mp hstreams ?_
  exact ⟨longPlaintext, length_chunks_longPlaintext, .inl (hrest.trans hc)⟩

end Agecrypt
