import Agecrypt.Agec.Refine
import Agecrypt.Agec.Sealing

/-!
# The buffers over a pair of descriptors

`Dev` has any schedule of short and failed calls.  A sequence of `bwrite`
calls and a flush send what they were given, and a sequence of `bread` and
`bpeek` calls on a binary input delivers its bytes, whatever the schedule.
-/

namespace Agecrypt

open ProgE

/-! ## `Dev` as a channel -/

namespace Dev

/-- The number of calls that have failed. -/
def fails (d : Dev) : Nat := d.readFails + d.writeFails

/-- No read will fail. -/
def Reads (d : Dev) : Prop := ∀ i, d.reads i ≠ .fail

/-- No write will fail. -/
def Writes (d : Dev) : Prop := ∀ i, d.writes i ≠ .fail

/-- No allocation will fail. -/
def Allocates (d : Dev) : Prop := ∀ i, d.allocs i = true

end Dev

/-- `Dev` with the descriptors `fi` and `fo`.  When `room` is false, no
promise is made about writes. -/
def devChan (fi fo : Int) (room : Prop) : Chan Dev where
  fi := fi
  fo := fo
  unread := Dev.inp
  accepted := Dev.out
  draws := Dev.draws
  fails := Dev.fails
  live := fun _ => True
  allocates := Dev.Allocates
  steady := fun d => d.Reads ∧ (room → d.Writes)
  quiet := True
  room := fun _ => room
  room_mono := fun _ => id
  read_ok := by
    rintro d n bs d' - hn h
    change Dev.read n d = _ at h
    unfold Dev.read at h
    rcases hr : d.reads 0 with _ | k
    · simp [hr] at h
    · simp only [hr, Prod.mk.injEq, Option.some.injEq] at h
      obtain ⟨rfl, rfl⟩ := h
      refine ⟨by simp, (List.take_append_drop _ _).symm, fun hnil => ?_, rfl, rfl, rfl, rfl,
        trivial, fun hs => ⟨fun i => hs.1 (i + 1), hs.2⟩, id⟩
      have hpos : min n (k + 1) ≠ 0 := by omega
      simpa [hpos] using List.take_eq_nil_iff.mp hnil
  read_fail := by
    rintro d n d' - h
    change Dev.read n d = _ at h
    unfold Dev.read at h
    rcases hr : d.reads 0 with _ | k
    · simp only [hr, Prod.mk.injEq, true_and] at h
      subst h
      exact ⟨rfl, rfl, by simp only [Dev.fails]; omega, trivial, fun hs => hs.1 0 hr⟩
    · simp [hr] at h
  write_meant := fun {d bs} _ _ => ⟨(Dev.write bs d).1, (Dev.write bs d).2, rfl⟩
  write_ok := by
    rintro d bs k d' - hne h
    change some (Dev.write bs d) = _ at h
    replace h := Option.some.inj h
    unfold Dev.write at h
    have hpos : 0 < bs.length := List.length_pos_iff.mpr hne
    rcases hw : d.writes 0 with _ | c
    · simp [hw] at h
    · simp only [hw, Prod.mk.injEq, Option.some.injEq] at h
      obtain ⟨rfl, rfl⟩ := h
      exact ⟨by omega, by omega, rfl, rfl, rfl, rfl, rfl, trivial,
        fun hs => ⟨hs.1, fun hr i => hs.2 hr (i + 1)⟩, id⟩
  write_fail := by
    rintro d bs d' - h
    change some (Dev.write bs d) = _ at h
    replace h := Option.some.inj h
    unfold Dev.write at h
    rcases hw : d.writes 0 with _ | c
    · simp only [hw, Prod.mk.injEq, true_and] at h
      subst h
      exact ⟨rfl, by simp only [Dev.fails]; omega, trivial, fun hs => hs.1.2 hs.2 0 hw⟩
    · simp [hw] at h
  alloc_ok := by
    rintro d n b d' - h
    obtain ⟨rfl, rfl⟩ := Prod.mk.inj h
    exact ⟨fun ha => ha 0, rfl, rfl, rfl, fun _ => rfl, rfl, trivial, id,
      fun ha i => ha (i + 1)⟩
  random_ok := by
    rintro d n r d' - h
    obtain ⟨rfl, rfl⟩ := Prod.mk.inj h
    exact ⟨rfl, rfl, rfl, rfl, rfl, rfl, trivial, id, id⟩

/-! ## The start of an operation -/

/-- What the memory of an operation holds before it is set. -/
structure Memory where
  ib : Ibuf
  ob : Bytes IOABUFRAWSIZE
  ebuf : String
  data : RecPtr

/-- An input and an output buffer as an entry point sets them. -/
def Memory.start {δ : Type} (m : Memory) (fi fo : Int) (recording isarmor : Bool) (d : δ) :
    Io δ :=
  ⟨{ ibinit m.ib fi with recording }, ⟨fo, 0, isarmor, m.ob⟩, m.ebuf, m.data, d⟩

/-- Zero bytes everywhere. -/
def Memory.zero : Memory :=
  ⟨⟨0, false, .no, false, none, 0, 0, 0, 0, 0, Bytes.zero _, Bytes.zero _, ⟨[], 0⟩⟩, Bytes.zero _,
    "", .readBuffer⟩

/-- A system on which no call fails, and which delivers and accepts as many
bytes at a time as `count` says. -/
def Dev.steady (inp : List UInt8) (count : Nat) : Dev :=
  ⟨inp, fun _ => .count count, [], fun _ => .count count, fun _ => true,
    fun _ => some fun _ => 0, "", 0, 0⟩

theorem Dev.steady_inp (inp : List UInt8) (count : Nat) : (Dev.steady inp count).inp = inp := rfl

/-! ## Writing -/

/-- A call on the output buffer: whether it succeeded, and the number of
calls of the descriptor that failed during it. -/
structure WriteCall where
  ok : Bool
  failed : Nat

/-- A sequence of `bwrite` calls and a final `bflush`.  A call that failed
does not end the sequence. -/
def writeCalls : List (List UInt8) → Io Dev → Option (List WriteCall × Io Dev)
  | [], io => do
    let (ok, io') ← bflush io
    some ([⟨ok, io'.dev.fails - io.dev.fails⟩], io')
  | bs :: calls, io => do
    let (ok, io') ← bwrite bs io
    let (rs, io'') ← writeCalls calls io'
    some (⟨ok, io'.dev.fails - io.dev.fails⟩ :: rs, io'')

section

variable {ch : Chan Dev}

/-- A call reports a failed write of the descriptor, and only that. -/
theorem Outcome.failed_iff {io io' : Io Dev} {k : Snk} {ok : Bool}
    (h : Outcome ch io k ok io') (hf : ch.fails = Dev.fails) :
    0 < io'.dev.fails - io.dev.fails ↔ ok = false := by
  rcases h with ⟨rfl, hlt, -⟩ | ⟨rfl, hk, -⟩
  · rw [hf] at hlt
    simp only [iff_true]
    omega
  · have he := hk.fails
    rw [hf] at he
    simp [he]

/-- Any buffer within its bounds is a `Snk`. -/
theorem snkRel_of_cur {io : Io Dev} (hfd : io.ob.fd = ch.fo) (hcur : io.ob.cur < io.ob.cap) :
    SnkRel ch io ⟨io.ob.isarmor, ch.accepted io.dev, io.ob.buf.window 0 io.ob.cur⟩ :=
  ⟨hfd, rfl, hcur, rfl, rfl⟩

end

/-- The calls of a sequence, from any state of the buffer. -/
theorem writeCalls_spec (fi fo : Int) (calls : List (List UInt8)) {io : Io Dev}
    (hfd : io.ob.fd = fo) (hcur : io.ob.cur < io.ob.cap) :
    ∃ rs io', writeCalls calls io = some (rs, io') ∧
      (∀ r ∈ rs, 0 < r.failed ↔ r.ok = false) ∧
      ∀ k pre raw, SnkRel (devChan fi fo False) io k → k.Has pre raw → (∀ r ∈ rs, r.ok = true) →
        io'.dev.out = pre ++ Snk.text k.isarmor (raw ++ calls.flatten) := by
  induction calls generalizing io with
  | nil =>
    have hr : SnkRel (devChan fi fo False) io _ := snkRel_of_cur hfd hcur
    obtain ⟨ok, io', h, -, ho⟩ := bflush_spec trivial hr
    refine ⟨_, io', by rw [writeCalls, h]; rfl, ?_, ?_⟩
    · rintro r hmem
      obtain rfl := List.mem_singleton.mp hmem
      exact ho.failed_iff rfl
    · rintro k pre raw hk hhas hok
      obtain rfl : ok = true := hok _ (List.mem_singleton_self _)
      obtain ⟨ok', io'', h', -, ho'⟩ := bflush_spec trivial hk
      rw [h] at h'
      obtain ⟨rfl, rfl⟩ := Prod.mk.inj (Option.some.inj h')
      rcases ho' with ⟨hf, -⟩ | ⟨-, -, hr'⟩
      · cases hf
      · have hsent : io'.dev.out = k.bflush.sent := hr'.sent
        rw [hsent, hhas.bflush.1, List.flatten_nil, List.append_nil]
  | cons bs calls ih =>
    have hr : SnkRel (devChan fi fo False) io _ := snkRel_of_cur hfd hcur
    obtain ⟨ok, io₁, h, hw, ho⟩ := bwrite_spec bs trivial hr
    obtain ⟨rs, io', h', hall, hlast⟩ := ih (hw.fd.trans hfd) (hw.cur hcur)
    refine ⟨⟨ok, io₁.dev.fails - io.dev.fails⟩ :: rs, io', ?_, ?_, ?_⟩
    · rw [writeCalls, h]
      simp only [Option.bind_eq_bind, Option.bind_some, h']
    · intro r hmem
      rcases List.mem_cons.mp hmem with rfl | hmem
      · exact ho.failed_iff rfl
      · exact hall r hmem
    · intro k pre raw hk hhas hok
      obtain rfl : ok = true := hok _ List.mem_cons_self
      obtain ⟨ok', io'', h'', -, ho'⟩ := bwrite_spec bs trivial hk
      rw [h] at h''
      obtain ⟨rfl, rfl⟩ := Prod.mk.inj (Option.some.inj h'')
      rcases ho' with ⟨hf, -⟩ | ⟨-, -, hr'⟩
      · cases hf
      · have := hlast _ pre (raw ++ bs) hr' (hhas.bwrite bs)
          (fun r hmem => hok r (List.mem_cons_of_mem _ hmem))
        rw [this, Snk.bwrite_isarmor, List.flatten_cons, List.append_assoc]

/-- Whatever the schedule of the descriptor: a call says that it failed
exactly when a write failed during it; and when all calls succeed, the descriptor has received what
the calls were given, as it is or as armored text. -/
theorem writeCalls_exact (calls : List (List UInt8)) (m : Memory) (fi fo : Int)
    (recording isarmor : Bool) (dev : Dev) :
    ∃ rs io, writeCalls calls (m.start fi fo recording isarmor dev) = some (rs, io) ∧
      (∀ r ∈ rs, 0 < r.failed ↔ r.ok = false) ∧
      ((∀ r ∈ rs, r.ok = true) →
        io.dev.out = dev.out ++ if isarmor then armorText calls.flatten else calls.flatten) := by
  have hcur : (m.start fi fo recording isarmor dev).ob.cur <
      (m.start fi fo recording isarmor dev).ob.cap := cap_pos _
  obtain ⟨rs, io, h, hall, hlast⟩ := writeCalls_spec fi fo calls rfl hcur
  refine ⟨rs, io, h, hall, fun hok => ?_⟩
  have hk : SnkRel (devChan fi fo False) (m.start fi fo recording isarmor dev) _ :=
    snkRel_of_cur rfl hcur
  exact hlast _ dev.out [] hk (Snk.has_nil (by simp [Memory.start])) hok

/-! ## Reading -/

/-- A call on the input buffer. -/
inductive ReadCall where
  | bread (n : Nat)
  | bpeek

/-- The answer of a call. -/
inductive ReadAns where
  | bread (r : Option (List UInt8))
  | bpeek (r : Peek)
deriving DecidableEq, Repr

/-- One call. -/
def readCall {δ : Type} [Descr δ] : ReadCall → Io δ → Option (ReadAns × Io δ)
  | .bread n, io => (bread n io).map (fun x => (.bread x.1, x.2))
  | .bpeek, io => (bpeek io).map (fun x => (.bpeek x.1, x.2))

/-- A sequence of calls. -/
def readCalls {δ : Type} [Descr δ] : List ReadCall → Io δ → Option (List ReadAns × Io δ)
  | [], io => some ([], io)
  | c :: calls, io => do
    let (a, io) ← readCall c io
    let (as, io) ← readCalls calls io
    some (a :: as, io)

/-- What the calls answer when `rest` is there to be delivered, and what is
left of it. -/
def answers : List ReadCall → List UInt8 → List ReadAns × List UInt8
  | [], rest => ([], rest)
  | .bread n :: calls, rest =>
    (.bread (some (rest.take n)) :: (answers calls (rest.drop n)).1,
      (answers calls (rest.drop n)).2)
  | .bpeek :: calls, rest =>
    (.bpeek (rest.head?.elim .eof .char) :: (answers calls rest).1, (answers calls rest).2)

section

variable {δ : Type} [Descr δ] {ch : Chan δ} {f : Feed ch}

theorem Src.bpeek_fst (s : Src) : s.bpeek.1 = s.rest.head?.elim .eof .char := by
  rcases hr : s.rest with _ | ⟨c, cs⟩
  · rw [Src.bpeek_end hr]
    rfl
  · rw [Src.bpeek_char hr]
    rfl

theorem Src.bpeek_rest (s : Src) : s.bpeek.2.rest = s.rest := by
  rcases hr : s.rest with _ | ⟨c, cs⟩
  · rw [Src.bpeek_end hr]
    exact s.probe_rest.trans hr
  · rw [Src.bpeek_char hr]
    exact s.probe_rest.trans hr

/-- A call on a `Src`. -/
def Src.call : ReadCall → Src → ReadAns × Src
  | .bread n, s => (.bread (some (s.bread n).1), (s.bread n).2)
  | .bpeek, s => (.bpeek s.bpeek.1, s.bpeek.2)

/-- A sequence of calls on a `Src`. -/
def Src.calls : List ReadCall → Src → List ReadAns × Src
  | [], s => ([], s)
  | c :: calls, s =>
    ((s.call c).1 :: (Src.calls calls (s.call c).2).1, (Src.calls calls (s.call c).2).2)

theorem Src.calls_answers (calls : List ReadCall) (s : Src) :
    answers calls s.rest = ((s.calls calls).1, (s.calls calls).2.rest) := by
  induction calls generalizing s with
  | nil => rfl
  | cons c calls ih =>
    cases c with
    | bread n => rw [answers, Src.calls, Src.call, show s.rest.drop n = (s.bread n).2.rest from rfl,
        ih, Src.bread]
    | bpeek => rw [answers, Src.calls, Src.call, ← s.bpeek_rest, ih, s.bpeek_rest, s.bpeek_fst]

/-- What every call keeps, a sequence of calls keeps. -/
theorem Src.calls_invariant {I : Src → Prop} (hI : ∀ c s, I s → I (s.call c).2)
    (calls : List ReadCall) {s : Src} (hs : I s) : I (s.calls calls).2 := by
  induction calls generalizing s with
  | nil => exact hs
  | cons c calls ih => exact ih (hI c s hs)

/-- One call on a known input, when no read fails. -/
theorem readCall_spec (c : ReadCall) {io : Io δ} {s : Src} (hl : f.ready io.dev)
    (hst : ch.steady io.dev) (hfd : io.ib.fd = ch.fi) (hr : SrcRel f io.ib (ch.unread io.dev) s) :
    ∃ io', readCall c io = some ((s.call c).1, io') ∧ Frame ch io io' ∧
      SrcRel f io'.ib (ch.unread io'.dev) (s.call c).2 := by
  cases c with
  | bread n =>
    rcases bread_spec n hl hfd hr with ⟨io', -, hlost⟩ | ⟨io', h, hfr, hr'⟩
    · exact absurd hst hlost.unsteady
    · exact ⟨io', by rw [readCall, h]; rfl, hfr, hr'⟩
  | bpeek =>
    rcases bpeek_spec hl hfd hr with ⟨io', -, hlost⟩ | ⟨io', h, hfr, hr'⟩
    · exact absurd hst hlost.unsteady
    · exact ⟨io', by rw [readCall, h]; rfl, hfr, hr'⟩

/-- A sequence of calls on a known input, when no read fails. -/
theorem readCalls_spec (calls : List ReadCall) {io : Io δ} {s : Src} (hl : f.ready io.dev)
    (hst : ch.steady io.dev) (hfd : io.ib.fd = ch.fi) (hr : SrcRel f io.ib (ch.unread io.dev) s) :
    ∃ io', readCalls calls io = some ((s.calls calls).1, io') ∧ Frame ch io io' ∧
      SrcRel f io'.ib (ch.unread io'.dev) (s.calls calls).2 := by
  induction calls generalizing io s with
  | nil => exact ⟨io, rfl, .refl (f.live hl), hr⟩
  | cons c calls ih =>
    obtain ⟨io₁, h, hfr, hr₁⟩ := readCall_spec c hl hst hfd hr
    obtain ⟨io', h', hfr', hr'⟩ := ih (f.kept hl hfr.kept) (hfr.kept.steady hst)
      (hfr.fd.trans hfd) hr₁
    refine ⟨io', ?_, hfr.trans hfr', hr'⟩
    rw [readCalls, h]
    simp only [Option.bind_eq_bind, Option.bind_some, h']
    rfl

end

/-! ## A binary input -/

/-- The flag `eof` is raised early only by the probe, on less than its 35
bytes. -/
def Src.Probed (s : Src) : Prop := s.probe.eof = true → s.rest.length < 35

theorem Src.probed_binary (d : List UInt8) : (Src.binary d).Probed := by
  intro h
  simpa [Src.binary, Src.probe, show armorfirst.length = 35 by decide] using h

theorem Src.probed_call (c : ReadCall) (s : Src) (h : s.Probed) : (s.call c).2.Probed := by
  cases c with
  | bread n =>
    intro he
    simp only [Src.call, Src.bread, Src.probe, Bool.or_eq_true, decide_eq_true_eq] at he ⊢
    rw [List.length_drop]
    rcases he with he | he
    · have := h he
      omega
    · omega
  | bpeek =>
    intro he
    simp only [Src.call] at he ⊢
    rw [s.bpeek_rest]
    rcases hr : s.rest with _ | ⟨c, cs⟩
    · simp
    · rw [Src.bpeek_char hr, Src.probe_of_none s.probe_start] at he
      rw [← hr]
      exact h he

section

variable {δ : Type} [Descr δ] {ch : Chan δ} {f : Feed ch}

theorem SrcRel.eof {ib : Ibuf} {u : List UInt8} {s : Src} (h : SrcRel f ib u s) :
    ib.eof = s.eof := by
  cases h with
  | fresh hs => exact (f.start_eof hs).symm
  | opened _ _ _ _ _ he _ _ => exact he.symm

/-- `ateof` behind a read that leaves the flag `eof` exact. -/
theorem ateof_spec {io : Io δ} {s : Src} (hl : f.ready io.dev) (hst : ch.steady io.dev)
    (hfd : io.ib.fd = ch.fi) (hr : SrcRel f io.ib (ch.unread io.dev) s)
    (he : s.eof = true → s.rest = []) :
    ∃ io', Runs rdHandler ateof io (.ok (some s.rest.isEmpty)) io' := by
  unfold ateof
  by_cases heof : io.ib.eof = true
  · refine ⟨io, runs_op_bind.mpr ⟨true, io, by rw [← heof]; rfl, ?_⟩⟩
    rw [he (hr.eof ▸ heof), if_pos rfl]
    exact runs_pure.mpr ⟨rfl, rfl⟩
  · rcases bpeek_spec hl hfd hr with ⟨io', -, hlost⟩ | ⟨io', h, -, -⟩
    · exact absurd hst hlost.unsteady
    have hfalse : io.ib.eof = false := by simpa using heof
    refine ⟨io', runs_op_bind.mpr ⟨false, io, by rw [← hfalse]; rfl, ?_⟩⟩
    rw [if_neg Bool.false_ne_true]
    refine runs_op_bind.mpr ⟨_, io', h, ?_⟩
    rcases hrest : s.rest with _ | ⟨c, cs⟩
    · rw [Src.bpeek_end hrest]
      exact runs_pure.mpr ⟨rfl, rfl⟩
    · rw [Src.bpeek_char hrest]
      exact runs_pure.mpr ⟨rfl, rfl⟩

end

/-- At the start, a binary input is a `Src`. -/
theorem srcRel_start (ch : Chan Dev) (m : Memory) (fi fo : Int) (recording isarmor : Bool)
    {dev : Dev} (hbin : ¬ armorfirst <+: ch.unread dev) :
    SrcRel (binaryFeed ch) (m.start fi fo recording isarmor dev).ib (ch.unread dev)
      (Src.binary (ch.unread dev)) :=
  .fresh ⟨rfl, rfl, rfl, hbin, rfl⟩

/-- Whatever the short reads: calls on a binary input answer its bytes in
order, and behind a read of 35 bytes or more `ateof` tells whether all of
them have been delivered. -/
theorem readCalls_transparent (calls : List ReadCall) (m : Memory) (fi fo : Int)
    (recording isarmor : Bool) (dev : Dev) (hreads : dev.Reads)
    (hbin : ¬ armorfirst <+: dev.inp) :
    ∃ io, readCalls calls (m.start fi fo recording isarmor dev) =
        some ((answers calls dev.inp).1, io) ∧
      ∀ n, 35 ≤ n → ∃ bs io₁ io₂, bread n io = some (some bs, io₁) ∧
        Runs rdHandler ateof io₁
          (.ok (some ((answers calls dev.inp).2.drop n).isEmpty)) io₂ := by
  have hstart := srcRel_start (devChan fi fo False) m fi fo recording isarmor hbin
  obtain ⟨io, h, hfr₀, hr⟩ := @readCalls_spec _ _ _ (binaryFeed (devChan fi fo False)) calls
    (m.start fi fo recording isarmor dev) _ trivial ⟨hreads, False.elim⟩ rfl hstart
  have hans := (Src.binary dev.inp).calls_answers calls
  rw [show (Src.binary dev.inp).rest = dev.inp from rfl] at hans
  rw [hans]
  refine ⟨io, h, fun n hn => ?_⟩
  have hprobed := Src.calls_invariant Src.probed_call calls (Src.probed_binary dev.inp)
  obtain ⟨s, hs⟩ : ∃ s, s = ((Src.binary dev.inp).calls calls).2 := ⟨_, rfl⟩
  rw [show (devChan fi fo False).unread dev = dev.inp from rfl, ← hs] at hr
  rw [← hs] at hprobed ⊢
  have hst : (devChan fi fo False).steady io.dev := hfr₀.kept.steady ⟨hreads, False.elim⟩
  rcases bread_spec n trivial hfr₀.fd hr with ⟨io', -, hlost⟩ | ⟨io₁, h₁, hfr, hr₁⟩
  · exact absurd hst hlost.unsteady
  · have htight : (s.bread n).2.Tight := Src.tight_bread (fun he => by have := hprobed he; omega)
    obtain ⟨io₂, h₂⟩ := @ateof_spec _ _ _ (binaryFeed (devChan fi fo False)) io₁ _ trivial
      (hfr.kept.steady hst) (hfr.fd.trans hfr₀.fd) hr₁ htight.2
    exact ⟨_, io₁, io₂, h₁, h₂⟩

/-- An input that is shorter than the probe. -/
theorem readCalls_transparent_short :
    ∃ io, readCalls [.bpeek, .bread 2] (Memory.zero.start 3 4 true false (Dev.steady [1] 0)) =
        some ([.bpeek (.char 1), .bread (some [1])], io) ∧
      ∀ n, 35 ≤ n → ∃ bs io₁ io₂, bread n io = some (some bs, io₁) ∧
        Runs rdHandler ateof io₁ (.ok (some (([] : List UInt8).drop n).isEmpty)) io₂ :=
  readCalls_transparent [.bpeek, .bread 2] Memory.zero 3 4 true false (Dev.steady [1] 0)
    (fun _ h => Event.noConfusion h) (by decide)

end Agecrypt
