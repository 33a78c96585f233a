import Agecrypt.Agec.HeaderData

/-!
# The arguments of the header MAC

`validmac` ends the recording, reads the line of the MAC, and then looks at
the bytes that `recstop` returned.  These are the header as it was read, from
the version line to the closing `---`, whatever the schedule of the reads and
in either form of the input: a header whose MAC was made over its text is
accepted, and no other.  The one exception is an armored input whose MAC line
is cut by the end of its first 8192 bytes.

`InHeader` and `Supply` are the inputs of the parser before and behind
`recstop`.
-/

namespace Agecrypt

open ProgE

variable {δ : Type} [Descr δ] {ch : Chan δ}

theorem SnkRel.frame {io io' : Io δ} {k : Snk} (h : SnkRel ch io k) (hfr : Frame ch io io') :
    SnkRel ch io' k :=
  ⟨by rw [hfr.ob]; exact h.fd, by rw [hfr.ob]; exact h.isarmor, by rw [hfr.ob]; exact h.cur,
    by rw [hfr.ob]; exact h.held, hfr.accepted.trans h.sent⟩

/-! ## Before `recstop` -/

theorem bread_of_probe {io io' : Io δ} (n : Nat) (h : probe io = some (true, io'))
    (h' : probe io' = some (true, io')) : bread n io = bread n io' := by
  unfold bread
  rw [h, h']

theorem bpeek_of_probe {io io' : Io δ} (h : probe io = some (true, io'))
    (h' : probe io' = some (true, io')) : bpeek io = bpeek io' := by
  unfold bpeek
  rw [h, h']

/-- The header is being read, `l` is to come, and `k` is the output. -/
inductive InHeader (f : Feed ch) (d : List UInt8) (M : Nat) (fresh : Prop) (k : Snk) (io : Io δ) :
    List UInt8 → Prop
  | start {io' : Io δ} {s : Src} : probe io = some (true, io') → Reading f d M fresh io' s →
      s.past = [] → s.Probed → SnkRel ch io' k → InHeader f d M fresh k io s.rest
  | reading {s : Src} : Reading f d M fresh io s → s.Probed → SnkRel ch io k →
      InHeader f d M fresh k io s.rest

section

variable {f : Feed ch} {d : List UInt8} {M : Nat} {fresh : Prop} {k : Snk}

theorem Reading.delivers_bread (hfirst : FirstBuffer f d M fresh) {io : Io δ} {s : Src} (n : Nat)
    (h : Reading f d M fresh io s) (hs : s.Probed) (hk : SnkRel ch io k) :
    ∃ io', Agecrypt.bread n io = some (some (s.rest.take n), io') ∧
      InHeader f d M fresh k io' (s.rest.drop n) := by
  obtain ⟨io', hb, hfr, h'⟩ := h.bread hfirst n
  exact ⟨io', hb, .reading h' (Src.probed_call (.bread n) s hs) (hk.frame hfr)⟩

theorem Reading.delivers_bpeek (hfirst : FirstBuffer f d M fresh) {io : Io δ} {s : Src}
    (h : Reading f d M fresh io s) (hs : s.Probed) (hk : SnkRel ch io k) :
    ∃ io', Agecrypt.bpeek io = some (s.rest.head?.elim .eof .char, io') ∧
      InHeader f d M fresh k io' s.rest := by
  obtain ⟨io', hb, hfr, h'⟩ := h.bpeek hfirst
  rw [s.bpeek_fst] at hb
  have hin := InHeader.reading h' (Src.probed_call .bpeek s hs) (hk.frame hfr)
  rw [s.bpeek_rest] at hin
  exact ⟨io', hb, hin⟩

theorem delivers_inHeader (hfirst : FirstBuffer f d M fresh) :
    Delivers (InHeader f d M fresh k) rdHandler := by
  constructor
  · intro io l n h
    cases h with
    | start hprobe h _ hs hk =>
      obtain ⟨io', hb, hin⟩ := h.delivers_bread hfirst n hs hk
      rw [← bread_of_probe n hprobe h.probed] at hb
      exact ⟨io', hb, hin⟩
    | reading h hs hk => exact h.delivers_bread hfirst n hs hk
  · intro io l h
    cases h with
    | start hprobe h _ hs hk =>
      obtain ⟨io', hb, hin⟩ := h.delivers_bpeek hfirst hs hk
      rw [← bpeek_of_probe hprobe h.probed] at hb
      exact ⟨io', hb, hin⟩
    | reading h hs hk => exact h.delivers_bpeek hfirst hs hk

/-- Behind the first byte the input has been probed. -/
theorem InHeader.reads {io : Io δ} {t u : List UInt8} (h : InHeader f d M fresh k io u)
    (hd : d = t ++ u) (ht : t ≠ []) :
    ∃ s : Src, Reading f d M fresh io s ∧ s.past = t ∧ s.rest = u ∧ s.Probed ∧ SnkRel ch io k := by
  cases h with
  | @start io' s _ h hpast _ _ =>
    have hwhole := h.whole
    rw [hpast, List.nil_append, hd] at hwhole
    exact absurd (List.append_left_eq_self.mp hwhole.symm) ht
  | @reading s h hs hk =>
    have hwhole := h.whole
    rw [hd] at hwhole
    exact ⟨s, h, List.append_cancel_right hwhole, rfl, hs, hk⟩

end

/-! ## Behind `recstop` -/

/-- `l` is to come, and `k` is the output. -/
structure Supply (f : Feed ch) (k : Snk) (io : Io δ) (l : List UInt8) : Prop where
  source : ∃ s : Src, Feeding f io s ∧ s.Probed ∧ s.rest = l
  steady : ch.steady io.dev
  allocates : ch.allocates io.dev
  sink : SnkRel ch io k

section

variable {f : Feed ch} {k : Snk}

theorem Supply.next {io io' : Io δ} {l l' : List UInt8} (h : Supply f k io l) {s : Src}
    (hfr : Frame ch io io') (hf : Feeding f io' s) (hs : s.Probed) (hl : s.rest = l') :
    Supply f k io' l' :=
  ⟨⟨s, hf, hs, hl⟩, hfr.kept.steady h.steady, hfr.kept.allocates h.allocates, h.sink.frame hfr⟩

theorem delivers_supply : Delivers (Supply f k) rdHandler := by
  constructor
  · intro io l n h
    obtain ⟨s, hf, hs, rfl⟩ := h.source
    rcases bread_spec n hf.ready hf.fd hf.src with ⟨io', -, hlost⟩ | ⟨io', hb, hfr, hr⟩
    · exact absurd h.steady hlost.unsteady
    · exact ⟨io', hb, h.next hfr (hf.frame hfr hr) (Src.probed_call (.bread n) s hs) rfl⟩
  · intro io l h
    obtain ⟨s, hf, hs, rfl⟩ := h.source
    rcases bpeek_spec hf.ready hf.fd hf.src with ⟨io', -, hlost⟩ | ⟨io', hb, hfr, hr⟩
    · exact absurd h.steady hlost.unsteady
    · rw [s.bpeek_fst] at hb
      exact ⟨io', hb, h.next hfr (hf.frame hfr hr) (Src.probed_call .bpeek s hs) s.bpeek_rest⟩

end

/-! ## The line of the MAC -/

/-- The pointer from `recstop` is good for `b` more bytes. -/
structure Pointing (f : Feed ch) (past : List UInt8) (b : Nat) (io : Io δ) : Prop where
  source : ∃ s : Src, Feeding f io s
  steady : ch.steady io.dev
  pinned : Pinned past b io

section

variable {f : Feed ch} {past : List UInt8} {α : Type}

theorem Pointing.bread (b : Nat) (io : Io δ) (r : Option (List UInt8)) (io' : Io δ)
    (h : Pointing f past (b + 1) io) (he : rdHandler (.bread 1) io = some (r, io')) :
    Pointing f past b io' := by
  obtain ⟨s, hf⟩ := h.source
  rcases bread_spec 1 hf.ready hf.fd hf.src with ⟨io₁, -, hlost⟩ | ⟨io₁, hb, hfr, hr⟩
  · exact absurd h.steady hlost.unsteady
  · have hsame := Option.some.inj (hb.symm.trans he)
    obtain ⟨-, rfl⟩ := Prod.mk.inj hsame
    exact ⟨⟨_, hf.frame hfr hr⟩, hfr.kept.steady h.steady, h.pinned.bread hb hfr.data⟩

theorem Pointing.eget (b : Nat) (io : Io δ) (r : String) (io' : Io δ) (h : Pointing f past b io)
    (he : rdHandler (.err .eget) io = some (r, io')) : Pointing f past b io' := by
  obtain ⟨-, rfl⟩ := Prod.mk.inj (Option.some.inj he)
  exact h

theorem spends_failed {n : Nat} : Spends rdHandler (Pointing f past) n (Rd.failed : Rd α) :=
  .free_bind Pointing.eget fun _ => .throw

/-- `readc` costs one byte. -/
theorem spends_readc {n : Nat} {g : Peek → Rd α}
    (hg : ∀ r, Spends rdHandler (Pointing f past) n (g r)) :
    Spends rdHandler (Pointing f past) (n + 1) (readc >>= g) := by
  have hone : Spends rdHandler (Pointing f past) (0 + 1) readc := by
    refine .op_bind Pointing.bread fun r => ?_
    rcases r with _ | _ | ⟨c, cs⟩
    · exact .pure
    · exact .pure
    · exact .pure
  exact hone.bind hg

theorem spends_skipspace : Spends rdHandler (Pointing f past) (0 + 1) skipspace := by
  refine spends_readc fun r => ?_
  cases r with
  | err => exact spends_failed
  | eof => exact .throw
  | char c =>
    show Spends rdHandler (Pointing f past) 0
      (if c ≠ SP then throw "invalid header MAC" else pure ())
    split
    · exact .throw
    · exact .pure

theorem spends_b64chars (term : UInt8) (rest : Nat) (buf : List UInt8) :
    Spends rdHandler (Pointing f past) (rest + 1) (b64chars term rest buf) := by
  induction rest generalizing buf with
  | zero =>
    rw [b64chars]
    refine spends_readc fun r => ?_
    cases r with
    | err => exact .pure
    | eof => exact .pure
    | char c => exact .pure
  | succ rest ih =>
    rw [b64chars]
    refine spends_readc fun r => ?_
    cases r with
    | err => exact .pure
    | eof => exact .pure
    | char c =>
      show Spends rdHandler (Pointing f past) (rest + 1)
        (if c = term then pure (some (some buf)) else if ¬ b64char c then pure (some none)
          else b64chars term rest (buf ++ [c]))
      split
      · exact .pure
      split
      · exact .pure
      · exact ih _

/-- A value and the character behind it. -/
theorem spends_b64value (rawlen : Nat) (term : UInt8) (einval : String) :
    Spends rdHandler (Pointing f past) (B64EBUFLEN rawlen + 1) (b64value rawlen term einval) := by
  have hseq : Spends rdHandler (Pointing f past) (0 + (B64EBUFLEN rawlen + 1))
      (getb64seq rawlen term) := by
    refine (spends_b64chars term (B64EBUFLEN rawlen) []).bind fun r => ?_
    rcases r with _ | _ | buf
    · exact .pure
    · exact .pure
    · dsimp only
      split
      · exact .pure
      · exact .pure
  have hvalue : Spends rdHandler (Pointing f past) (0 + (0 + (B64EBUFLEN rawlen + 1)))
      (b64value rawlen term einval) := by
    refine hseq.bind fun r => ?_
    cases r with
    | ioerr => exact spends_failed
    | invalid => exact .throw
    | value out => exact .pure
  rw [Nat.zero_add, Nat.zero_add] at hvalue
  exact hvalue

/-- `getmac` reads no more than the line of the MAC. -/
theorem spends_getmac : Spends rdHandler (Pointing f past) MACLEN getmac := by
  have hline : B64EBUFLEN 32 + 1 + (0 + 1) = MACLEN := by decide
  rw [← hline]
  exact spends_skipspace.bind fun _ => spends_b64value 32 NL _

end

/-! ## `validmac` -/

/-- The line of the MAC. -/
def macLine (mac : Bytes 32) : List UInt8 := [SP] ++ base64encode mac.val false ++ [NL]

theorem length_macLine (mac : Bytes 32) : (macLine mac).length = MACLEN := by
  rw [macLine, List.length_append, List.length_append, length_plain, mac.size_eq]
  decide

section

variable {f : Feed ch} {d : List UInt8} {M : Nat} {fresh : Prop} {k : Snk} {io : Io δ} {s : Src}

theorem runs_age_rd {α : Type} {p : Rd α} {r : Except String α} {io io' : Io δ} :
    Runs ageHandler (Age.rd p) io r io' ↔ Runs rdHandler p io r io' :=
  runs_rw.trans runs_rd

/-- `macArgs` behind `recstop`. -/
theorem runs_macArgs {io₁ : Io δ} {len : Nat} (hstop : recstop io = some (some len, io₁))
    {r : Except String (Bytes 32 × List UInt8)} {io' : Io δ} :
    Runs ageHandler macArgs io r io' ↔
      (∃ e, Runs rdHandler getmac io₁ (.error e) io' ∧ r = .error e) ∨
      ∃ mac data, Runs rdHandler getmac io₁ (.ok mac) io' ∧ loadData len io' = some data ∧
        r = .ok (mac, data) := by
  have hload : ∀ {mac : Bytes 32} {io₂ : Io δ}, Runs ageHandler (Age.loadData len >>= fun data =>
      pure (mac, data)) io₂ r io' ↔ ∃ data, loadData len io₂ = some data ∧ r = .ok (mac, data) ∧
        io' = io₂ := by
    intro mac io₂
    constructor
    · intro hr
      obtain ⟨data, t, ho, hr⟩ := runs_op_bind.mp hr
      obtain ⟨data', hdata, hx⟩ := Option.map_eq_some_iff.mp ho
      obtain ⟨rfl, rfl⟩ := Prod.mk.inj hx
      obtain ⟨hpure, rfl⟩ := runs_pure.mp hr
      exact ⟨data', hdata, hpure, rfl⟩
    · intro ⟨data, hdata, hr, hio⟩
      rw [hio]
      exact runs_op_bind.mpr ⟨data, io₂, Option.map_eq_some_iff.mpr ⟨data, hdata, rfl⟩,
        runs_pure.mpr ⟨hr, rfl⟩⟩
  unfold macArgs
  constructor
  · intro hr
    obtain ⟨a, t, ho, hr⟩ := runs_op_bind.mp hr
    obtain ⟨rfl, rfl⟩ := Prod.mk.inj (Option.some.inj (hstop.symm.trans ho))
    rcases runs_bind.mp hr with ⟨e, he, hx⟩ | ⟨mac, io₂, hmac, hr⟩
    · exact .inl ⟨e, runs_age_rd.mp he, hx⟩
    · obtain ⟨data, hdata, hx, rfl⟩ := hload.mp hr
      exact .inr ⟨mac, data, runs_age_rd.mp hmac, hdata, hx⟩
  · intro h
    refine runs_op_bind.mpr ⟨some len, io₁, hstop, runs_bind.mpr ?_⟩
    rcases h with ⟨e, he, hx⟩ | ⟨mac, data, hmac, hdata, hx⟩
    · exact .inl ⟨e, runs_age_rd.mpr he, hx⟩
    · exact .inr ⟨mac, io', runs_age_rd.mpr hmac, hload.mpr ⟨data, hdata, hx, rfl⟩⟩

/-- Behind `recstop`, when a line of a MAC follows, `macArgs` answers it and
the header. -/
theorem macArgs_spec (h : Reading f d M fresh io s) (hfirst : FirstBuffer f d M fresh)
    (hpast : s.past ≠ []) (hsafe : M < s.past.length ∨ s.past.length + MACLEN ≤ M)
    (hs : s.Probed) (hk : SnkRel ch io k) :
    (∀ mac u, s.rest = macLine mac ++ u →
        ∃ io', Runs ageHandler macArgs io (.ok (mac, s.past)) io' ∧ Supply f k io' u) ∧
      ∀ mac data io', Runs ageHandler macArgs io (.ok (mac, data)) io' →
        ∃ u, s.rest = macLine mac ++ u ∧ data = s.past ∧ Supply f k io' u := by
  obtain ⟨io₁, hstop, hf, hst, hsnk, hal, hpin⟩ := h.recstop hfirst hpast hsafe
  have hsupply : Supply f k io₁ s.rest := ⟨⟨s, hf, hs, rfl⟩, hst, hal, hsnk k hk⟩
  have hgetmac := recognizes_getmac (@delivers_supply δ _ ch f k)
  -- the pointer outlasts a run that finds the line of the MAC
  have hdata : ∀ {mac : Bytes 32} {u : List UInt8} {io' : Io δ}, s.rest = macLine mac ++ u →
      Runs rdHandler getmac io₁ (.ok mac) io' → loadData s.past.length io' = some s.past := by
    intro mac u io' hrest hr
    have hlen : MACLEN ≤ s.rest.length := by
      rw [hrest, List.length_append, length_macLine]
      omega
    have hpoint : Pointing f s.past (0 + MACLEN) io₁ :=
      ⟨⟨s, hf⟩, hst, by rw [Nat.zero_add]; exact hpin hlen⟩
    obtain ⟨b, -, hpoint'⟩ := spends_getmac 0 io₁ _ io' hpoint hr
    exact hpoint'.pinned.load
  constructor
  · intro mac u hrest
    rw [hrest] at hsupply
    obtain ⟨io', hr, hu⟩ := hgetmac.complete hsupply rfl
    exact ⟨io', (runs_macArgs hstop).mpr (.inr ⟨mac, s.past, hr, hdata hrest hr, rfl⟩), hu⟩
  · intro mac data io' hr
    rcases (runs_macArgs hstop).mp hr with ⟨e, -, he⟩ | ⟨mac', data', hmac, hload, hx⟩
    · cases he
    · obtain ⟨rfl, rfl⟩ := Prod.mk.inj (Except.ok.inj hx)
      obtain ⟨t, u, hrest, ht, hu⟩ := hgetmac.sound hsupply hmac
      rw [show t = macLine mac from ht] at hrest
      rw [hdata hrest hmac] at hload
      exact ⟨u, hrest, (Option.some.inj hload).symm, hu⟩

end

/-! ## The start -/

/-- The input `inp` delivers `d`: as it is, or by undoing its armor. -/
inductive Decodes : List UInt8 → Bool → List UInt8 → Prop
  | binary {inp : List UInt8} : ¬ armorfirst <+: inp → Decodes inp false inp
  | armored {text : List UInt8} : (unarmor text).2 = true →
      Decodes (armorfirst ++ text) true (unarmor text).1

/-- How much of an input is buffered before the header is read. -/
def firstBytes (armored : Bool) : Nat := if armored then IOBUFSIZE else armorfirst.length

section

variable {f : Feed ch} {d : List UInt8} {M : Nat} {fresh : Prop} {io io' : Io δ} {s : Src}

/-- The state behind the probe of a fresh buffer. -/
theorem Reading.of_probe (hready : f.ready io.dev) (hfi : io.ib.fd = ch.fi)
    (hfo : io.ob.fd = ch.fo) (hcur : io.ob.cur < io.ob.cap) (hst : ch.steady io.dev)
    (hal : ch.allocates io.dev) (hblank : Blank io) (hstart : f.start io.ib (ch.unread io.dev) s)
    (hpast : s.past = []) (hrest : s.rest = d) (hprobe : probe io = some (true, io'))
    (hfail : io'.ib.recfail = none) (hrecord : io'.ib.record = ⟨[], 0⟩)
    (hfirst : io'.ib.size = min M d.length ∨ (io'.ib.size = 0 ∧ fresh)) :
    Reading f d M fresh io' s.probe ∧ Frame ch io io' := by
  rcases probe_spec hready hfi (.fresh hstart) with ⟨io₁, h₁, -⟩ | ⟨io₁, h₁, hfr, hsrc⟩
  · rw [hprobe] at h₁
    exact absurd (Prod.mk.inj (Option.some.inj h₁)).1 (by decide)
  rw [hprobe] at h₁
  obtain ⟨-, rfl⟩ := Prod.mk.inj (Option.some.inj h₁)
  refine ⟨⟨⟨f.kept hready hfr.kept, hfr.fd.trans hfi, hsrc, by rw [hfr.ob]; exact hfo,
    by rw [hfr.ob]; exact hcur⟩, hfr.kept.steady hst, hfr.kept.allocates hal, s.probe_start, ?_, ?_,
    ⟨hfail, ?_, ?_⟩, fun _ => hfirst⟩, hfr⟩
  · rw [s.probe_past, s.probe_rest, hpast, hrest]
    rfl
  · rw [s.probe_past, hpast]
    exact hblank.probe hprobe
  · rw [hrecord]
    exact .inl rfl
  · rw [hrecord]
    exact Nat.le_refl 0

theorem Src.probed_probe {s : Src} (h : s.Probed) : s.probe.Probed := by
  intro he
  rw [Src.probe_of_none s.probe_start] at he
  rw [s.probe_rest]
  exact h he

end

section

variable (m : Memory) (isarmor : Bool) {dev : δ}

omit [Descr δ] in
theorem blank_start (fi fo : Int) (dev : δ) : Blank (m.start fi fo true isarmor dev) :=
  ⟨rfl, rfl, rfl, rfl⟩

theorem snkRel_begin (dev : δ) :
    SnkRel ch (m.start ch.fi ch.fo true isarmor dev) ⟨isarmor, ch.accepted dev, []⟩ :=
  ⟨rfl, rfl, cap_pos _, Bytes.window_self _ 0, rfl⟩

/-- The start of a binary input. -/
theorem inHeader_binary (hl : ch.live dev) (hst : ch.steady dev) (hal : ch.allocates dev)
    (hlen : (ch.unread dev).length ≤ 2 ^ 63) (hbin : ¬ armorfirst <+: ch.unread dev) :
    FirstBuffer (binaryFeed ch) (ch.unread dev) armorfirst.length False ∧
      InHeader (binaryFeed ch) (ch.unread dev) armorfirst.length False
        ⟨isarmor, ch.accepted dev, []⟩ (m.start ch.fi ch.fo true isarmor dev) (ch.unread dev) := by
  have hfirst : armorfirst.length = 35 := by decide
  refine ⟨⟨by omega, hlen, fun hno => hno.elim⟩, ?_⟩
  rcases @probe_binary _ _ ch (m.start ch.fi ch.fo true isarmor dev) hl rfl rfl rfl hbin with
    ⟨io', -, hlost⟩ | ⟨buf, dev', hprobe, -⟩
  · exact absurd hst hlost.unsteady
  have hsize : ((ch.unread dev).take armorfirst.length).length =
      min armorfirst.length (ch.unread dev).length := List.length_take
  obtain ⟨hr, hfr⟩ := @Reading.of_probe _ _ ch (binaryFeed ch) (ch.unread dev) armorfirst.length
    False (m.start ch.fi ch.fo true isarmor dev) _ (Src.binary (ch.unread dev)) hl rfl rfl
    (cap_pos _) hst hal (blank_start m isarmor _ _ dev)
    ⟨rfl, rfl, rfl, hbin, rfl⟩ rfl rfl hprobe rfl rfl (.inl hsize)
  have hin := InHeader.start hprobe hr (Src.probe_past _)
    (Src.probed_probe (Src.probed_binary (ch.unread dev))) ((snkRel_begin m isarmor dev).frame hfr)
  rw [Src.probe_rest] at hin
  exact hin

/-- The start of an armored input. -/
theorem inHeader_armored (hl : ch.live dev) (hst : ch.steady dev) (hal : ch.allocates dev)
    {text : List UInt8} (hlen : (unarmor text).1.length ≤ 2 ^ 63)
    (hu : ch.unread dev = armorfirst ++ text) (hok : (unarmor text).2 = true) :
    FirstBuffer (armorFeed ch) (unarmor text).1 IOBUFSIZE True ∧
      InHeader (armorFeed ch) (unarmor text).1 IOBUFSIZE True
        ⟨isarmor, ch.accepted dev, []⟩ (m.start ch.fi ch.fo true isarmor dev) (unarmor text).1 := by
  have hpos : 0 < IOBUFSIZE := by decide
  refine ⟨⟨hpos, hlen, fun _ io io' k hready hfd hholds hfill => ?_⟩, ?_⟩
  · rcases fill_armor hready hfd hholds.1 hholds.2 with
      ⟨io₁, h₁, -⟩ | ⟨hno, -⟩ | ⟨-, io₁, h₁, -⟩
    · rw [hfill] at h₁
      exact absurd (Prod.mk.inj (Option.some.inj h₁)).1 Nr.noConfusion
    · cases hno
    · rw [hfill] at h₁
      exact Nr.got.inj (Prod.mk.inj (Option.some.inj h₁)).1
  rcases @probe_armor _ _ ch (m.start ch.fi ch.fo true isarmor dev) text hl rfl rfl hu with
    ⟨io', -, hlost⟩ | ⟨buf, dev', hprobe, -⟩
  · exact absurd hst hlost.unsteady
  have hbounded : Bounded (m.start ch.fi ch.fo true isarmor dev).ib :=
    ⟨Nat.le_refl 0, Nat.zero_le _, Nat.zero_le _⟩
  obtain ⟨hr, hfr⟩ := @Reading.of_probe _ _ ch (armorFeed ch) (unarmor text).1 IOBUFSIZE
    True (m.start ch.fi ch.fo true isarmor dev) _ (Src.armored (unarmor text).1) ⟨hl, hal⟩ rfl rfl
    (cap_pos _) hst hal
    (blank_start m isarmor _ _ dev)
    ⟨⟨hbounded, rfl, rfl, rfl⟩, ⟨rfl, rfl, rfl⟩, text, hu, hok, rfl⟩ rfl rfl hprobe rfl rfl
    (.inr ⟨rfl, trivial⟩)
  have hprobed : (Src.armored (unarmor text).1).Probed := fun he => Bool.noConfusion he
  have hin := InHeader.start hprobe hr (Src.probe_past _) (Src.probed_probe hprobed)
    ((snkRel_begin m isarmor dev).frame hfr)
  rw [Src.probe_rest] at hin
  exact hin

/-- An input in either form is ready for the parser. -/
theorem inHeader_start (hl : ch.live dev) (hst : ch.steady dev) (hal : ch.allocates dev)
    {armored : Bool} {d : List UInt8} (hd : Decodes (ch.unread dev) armored d)
    (hlen : d.length ≤ 2 ^ 63) :
    ∃ (f : Feed ch) (fresh : Prop), FirstBuffer f d (firstBytes armored) fresh ∧
      InHeader f d (firstBytes armored) fresh ⟨isarmor, ch.accepted dev, []⟩
        (m.start ch.fi ch.fo true isarmor dev) d := by
  obtain ⟨u, hu⟩ : ∃ u, ch.unread dev = u := ⟨_, rfl⟩
  rw [hu] at hd
  cases hd with
  | binary hbin =>
    rw [← hu] at hbin hlen ⊢
    exact ⟨binaryFeed ch, False, inHeader_binary m isarmor hl hst hal hlen hbin⟩
  | armored hok =>
    exact ⟨armorFeed ch, True, inHeader_armored m isarmor hl hst hal hlen hu hok⟩

end

end Agecrypt
