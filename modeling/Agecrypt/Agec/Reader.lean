import Agecrypt.Agec.Channel
import Agecrypt.Agec.Machine

/-!
# The read buffer delivers a `Src`

`bread` and `bpeek` move bytes from a refill to the caller.  What a refill
delivers is a `Feed`: the unread bytes of a binary input, or the decoded
bytes of an armored one.  Over any feed the bytes in the buffer and those to
come make up the rest of a `Src`, and the two calls do on the buffer what
they do on the `Src`.  Two runs with different refills therefore have one
description.

A call of the system may fail; then the read reports it.
-/

namespace Agecrypt

variable {δ : Type} [Descr δ] {ch : Chan δ}

/-! ## What does not change -/

/-- No call failed, and only the input buffer and the input changed. -/
structure Frame (ch : Chan δ) (io io' : Io δ) : Prop where
  kept : ch.Kept io.dev io'.dev
  accepted : ch.accepted io'.dev = ch.accepted io.dev
  fd : io'.ib.fd = io.ib.fd
  ob : io'.ob = io.ob
  ebuf : io'.ebuf = io.ebuf
  data : io'.data = io.data

namespace Frame

theorem refl {io : Io δ} (h : ch.live io.dev) : Frame ch io io :=
  ⟨.refl h, rfl, rfl, rfl, rfl, rfl⟩

theorem trans {io₁ io₂ io₃ : Io δ} (h : Frame ch io₁ io₂) (h' : Frame ch io₂ io₃) :
    Frame ch io₁ io₃ :=
  ⟨h.kept.trans h'.kept, h'.accepted.trans h.accepted, h'.fd.trans h.fd, h'.ob.trans h.ob,
    h'.ebuf.trans h.ebuf, h'.data.trans h.data⟩

end Frame

/-! ## Recording -/

/-- Recording changes the recorded bytes and nothing else. -/
structure Recorded (ch : Chan δ) (io io' : Io δ) : Prop where
  frame : Frame ch io io'
  unread : ch.unread io'.dev = ch.unread io.dev
  ib : io'.ib = { io.ib with record := io'.ib.record, recfail := io'.ib.recfail }

theorem recgrow_recorded (src : List UInt8) {io : Io δ} (hl : ch.live io.dev) :
    Recorded ch io (recgrow src io) := by
  unfold recgrow
  simp only
  split
  · split
    · exact ⟨⟨.refl hl, rfl, rfl, rfl, rfl, rfl⟩, rfl, rfl⟩
    · rename_i ncap _
      rcases h : Descr.alloc ncap io.dev with ⟨b, d'⟩
      obtain ⟨hb, hu, ha, hd, he, hf, hl', hs, hal⟩ := ch.alloc_ok hl h
      have hk : ch.Kept io.dev d' := ⟨hl', hd, hf, hs, hal, fun hq => he (hq.imp_right hb)⟩
      cases b <;> exact ⟨⟨hk, ha, rfl, rfl, rfl, rfl⟩, hu, rfl⟩
  · exact ⟨⟨.refl hl, rfl, rfl, rfl, rfl, rfl⟩, rfl, rfl⟩

theorem recappend_recorded (src : List UInt8) {io : Io δ} (hl : ch.live io.dev) :
    Recorded ch io (recappend src io) := by
  unfold recappend
  split
  · exact ⟨.refl hl, rfl, rfl⟩
  split
  · rcases h : Descr.alloc RECINITLEN io.dev with ⟨b, d'⟩
    obtain ⟨hb, hu, ha, hd, he, hf, hl', hs, hal⟩ := ch.alloc_ok hl h
    have hk : ch.Kept io.dev d' := ⟨hl', hd, hf, hs, hal, fun hq => he (hq.imp_right hb)⟩
    cases b with
    | false => exact ⟨⟨hk, ha, rfl, rfl, rfl, rfl⟩, hu, rfl⟩
    | true =>
    let io₁ : Io δ := { io with
      ib := { io.ib with record := { io.ib.record with capacity := RECINITLEN } }, dev := d' }
    have hfirst : Frame ch io io₁ := ⟨hk, ha, rfl, rfl, rfl, rfl⟩
    have hg : Recorded ch io₁ (recgrow src io₁) := recgrow_recorded src hl'
    exact ⟨hfirst.trans hg.frame, hg.unread.trans hu, hg.ib⟩
  · exact recgrow_recorded src hl

/-- The buffer is recorded and emptied. -/
theorem dropBuffer_spec {io : Io δ} (hl : ch.live io.dev) (hs : io.ib.size ≤ IOBUFSIZE) :
    ∃ io', dropBuffer io = some io' ∧ Frame ch io io' ∧ ch.unread io'.dev = ch.unread io.dev ∧
      io'.ib = { io.ib with
        record := io'.ib.record, recfail := io'.ib.recfail, cur := 0, size := 0 } := by
  unfold dropBuffer
  by_cases hrec : io.ib.recording ∧ io.ib.size > 0
  · have hr : Recorded ch io _ := recappend_recorded (io.ib.buf.window 0 io.ib.size) hl
    rw [if_pos hrec, Bytes.load_eq _ (by omega), Nat.zero_add]
    exact ⟨_, rfl, ⟨hr.frame.kept, hr.frame.accepted, hr.frame.fd, hr.frame.ob, hr.frame.ebuf,
      hr.frame.data⟩, hr.unread, by simp only; rw [hr.ib]⟩
  · rw [if_neg hrec]
    exact ⟨_, rfl, ⟨.refl hl, rfl, rfl, rfl, rfl, rfl⟩, rfl, rfl⟩

/-! ## Feeds -/

/-- A refill changes the buffers and nothing else of the `Ibuf`. -/
structure Refilled (ib ib' : Ibuf) : Prop where
  cur : ib'.cur = ib.cur
  size : ib'.size = ib.size
  eof : ib'.eof = ib.eof
  isarmor : ib'.isarmor = ib.isarmor
  recording : ib'.recording = ib.recording
  recfail : ib'.recfail = ib.recfail
  record : ib'.record = ib.record

/-- The part of an `Ibuf` that the next refill depends on. -/
structure SameFeed (ib ib' : Ibuf) : Prop where
  isarmor : ib'.isarmor = ib.isarmor
  acur : ib'.acur = ib.acur
  asize : ib'.asize = ib.asize
  aendpos : ib'.aendpos = ib.aendpos
  abuf : ib'.abuf = ib.abuf

/-- What the refills of a read buffer deliver: `holds ib u p` says that with
`u` unread they will deliver `p`, and `start ib u s` that the reads, from the
probe on, will deliver the `Src` `s`. -/
structure Feed (ch : Chan δ) where
  /-- The states of the system that the refills need. -/
  ready : δ → Prop
  live : ∀ {d}, ready d → ch.live d
  sound : ∀ {d}, ch.Sound d → ready d
  next : ∀ {d d'}, ready d → ch.live d' → (ch.allocates d → ch.allocates d') → ready d'
  holds : Ibuf → List UInt8 → List UInt8 → Prop
  start : Ibuf → List UInt8 → Src → Prop
  same : ∀ {ib ib' u p}, SameFeed ib ib' → holds ib u p → holds ib' u p
  start_some : ∀ {ib u s}, start ib u s → s.start ≠ none
  start_eof : ∀ {ib u s}, start ib u s → s.eof = ib.eof
  opened : ∀ {ib u p}, holds ib u p → ib.isarmor ≠ .unchecked
  fill_law : ∀ {io : Io δ} {p}, ready io.dev → io.ib.fd = ch.fi →
    holds io.ib (ch.unread io.dev) p →
    (∃ io', fill io = some (.ioerr, io') ∧ ch.ReadLost io.dev io'.dev) ∨
    ∃ bs p' io', fill io = some (.got bs.length, io') ∧ Frame ch io io' ∧
      Refilled io.ib io'.ib ∧ holds io'.ib (ch.unread io'.dev) p' ∧ p = bs ++ p' ∧
      (bs = [] → p = []) ∧ bs.length ≤ IOBUFSIZE ∧ io'.ib.buf.window 0 bs.length = bs
  probe_law : ∀ {io : Io δ} {s}, ready io.dev → io.ib.fd = ch.fi →
    start io.ib (ch.unread io.dev) s →
    (∃ io', probe io = some (false, io') ∧ ch.ReadLost io.dev io'.dev) ∨
    ∃ io' p, probe io = some (true, io') ∧ Frame ch io io' ∧
      holds io'.ib (ch.unread io'.dev) p ∧ io'.ib.cur ≤ io'.ib.size ∧
      io'.ib.size ≤ IOBUFSIZE ∧ io'.ib.buf.window io'.ib.cur io'.ib.size ++ p = s.rest ∧
      s.probe.eof = io'.ib.eof ∧ (io'.ib.eof = true → p = [])

theorem Feed.kept (f : Feed ch) {d d' : δ} (hl : f.ready d) (hk : ch.Kept d d') : f.ready d' :=
  f.next hl hk.live hk.allocates

/-- The buffered bytes, and those that the feed will deliver. -/
inductive SrcRel (f : Feed ch) (ib : Ibuf) (u : List UInt8) : Src → Prop
  | fresh {s : Src} : f.start ib u s → SrcRel f ib u s
  | opened {s : Src} (p : List UInt8) : f.holds ib u p → ib.cur ≤ ib.size →
      ib.size ≤ IOBUFSIZE → ib.buf.window ib.cur ib.size ++ p = s.rest → s.eof = ib.eof →
      (ib.eof = true → p = []) → s.start = none → SrcRel f ib u s

variable {f : Feed ch}

/-- The first half of the loop body of `bread`. -/
theorem breadRefill_spec {io : Io δ} {s : Src} (hl : f.ready io.dev) (hfd : io.ib.fd = ch.fi)
    (hst : s.start = none) (hr : SrcRel f io.ib (ch.unread io.dev) s) :
    (∃ io', breadRefill io = some (some false, io') ∧ ch.ReadLost io.dev io'.dev) ∨
    (∃ io', breadRefill io = some (some true, io') ∧ Frame ch io io' ∧ s.rest = [] ∧
      SrcRel f io'.ib (ch.unread io'.dev) { s with eof := true }) ∨
    ∃ io', breadRefill io = some (none, io') ∧ Frame ch io io' ∧
      SrcRel f io'.ib (ch.unread io'.dev) s ∧
      (io'.ib.cur < io'.ib.size ∨
        (io'.ib.eof = true ∧ io'.ib.cur = io'.ib.size ∧ s.rest = [])) := by
  cases hr with
  | fresh hs => exact absurd hst (f.start_some hs)
  | opened p hp hcur hsize hrest heof hend _ =>
  rcases Nat.lt_or_ge io.ib.cur io.ib.size with hlt | hge
  · refine .inr (.inr ⟨io, ?_, .refl (f.live hl), .opened p hp hcur hsize hrest heof hend hst,
      .inl hlt⟩)
    unfold breadRefill
    rw [if_neg (by omega)]
    have hz : ¬ (io.ib.size = 0 ∧ io.ib.eof = false) := by omega
    simp [breadFetch, hz]
  have hcs : io.ib.cur = io.ib.size := by omega
  rw [hcs, Bytes.window_self, List.nil_append] at hrest
  obtain ⟨io₁, hdrop, hfr, hu, hib⟩ := dropBuffer_spec (f.live hl) hsize
  have h1eof : io₁.ib.eof = io.ib.eof := by rw [hib]
  have h1cur : io₁.ib.cur = 0 := by rw [hib]
  have h1size : io₁.ib.size = 0 := by rw [hib]
  have hp₁ : f.holds io₁.ib (ch.unread io₁.dev) p := by
    rw [hu]
    exact f.same ⟨by rw [hib], by rw [hib], by rw [hib], by rw [hib], by rw [hib]⟩ hp
  unfold breadRefill
  rw [if_pos hcs, hdrop]
  simp only [Option.bind_eq_bind, Option.bind_some, breadFetch, h1size, true_and]
  by_cases he : io.ib.eof = true
  · rw [if_neg (by simp [h1eof, he])]
    refine .inr (.inr ⟨io₁, rfl, hfr, .opened p hp₁ (by omega) (by omega) ?_ (by rw [h1eof, heof])
      (by rw [h1eof]; exact hend) hst, .inr ⟨by rw [h1eof, he], by omega, ?_⟩⟩)
    · rw [h1cur, h1size, Bytes.window_self, List.nil_append, hrest]
    · rw [← hrest, hend he]
  rw [if_pos (by simp [h1eof, he])]
  rcases f.fill_law (f.kept hl hfr.kept) (hfr.fd.trans hfd) hp₁ with
    ⟨io₂, hfill, hlost⟩ | ⟨bs, p', io₂, hfill, hfr₂, hre, hp₂, hpp, hnil, hb, hw⟩
  · exact .inl ⟨io₂, by rw [hfill]; rfl, hfr.kept.lost hlost⟩
  have hsame : ∀ eof size, SameFeed io₂.ib { io₂.ib with eof, size } :=
    fun _ _ => ⟨rfl, rfl, rfl, rfl, rfl⟩
  have hfr₃ : ∀ eof size, Frame ch io { io₂ with ib := { io₂.ib with eof, size } } :=
    fun _ _ => (hfr.trans hfr₂).trans ⟨.refl hfr₂.kept.live, rfl, rfl, rfl, rfl, rfl⟩
  rw [hfill]
  rcases bs with _ | ⟨b, bs⟩
  · obtain rfl := hnil rfl
    obtain rfl : p' = [] := by simpa using hpp.symm
    refine .inr (.inl ⟨_, rfl, hfr₃ _ _, hrest.symm, .opened [] (f.same (hsame _ _) hp₂) ?_ ?_ ?_
      rfl (fun _ => rfl) hst⟩)
    · simp [hre.cur, h1cur]
    · simp [hre.size, h1size]
    · simp only [hre.cur, hre.size, h1cur, h1size, Bytes.window_self]
      exact hrest
  · refine .inr (.inr ⟨_, rfl, hfr₃ _ _, .opened p' (f.same (hsame _ _) hp₂) ?_
      (by simpa using hb) ?_ ?_ ?_ hst, .inl ?_⟩)
    · simp [hre.cur, h1cur]
    · simp only [hre.cur, h1cur]
      rw [← hrest, hpp]
      congr 1
    · simp [hre.eof, h1eof, heof]
    · simp [hre.eof, h1eof, he]
    · simp [hre.cur, h1cur]

/-- Taking `c` bytes from the buffer. -/
theorem SrcRel.take {ib : Ibuf} {u : List UInt8} {s : Src} {c : Nat}
    (hst : s.start = none) (h : SrcRel f ib u s) (hc : ib.cur + c ≤ ib.size) :
    s.rest.take c = ib.buf.window ib.cur (ib.cur + c) ∧ c ≤ s.rest.length ∧
      ib.size ≤ IOBUFSIZE ∧ SrcRel f { ib with cur := ib.cur + c } u (s.skip c) := by
  cases h with
  | fresh hs => exact absurd hst (f.start_some hs)
  | opened p hp hcur hsize hrest heof hend _ =>
    have hsplit := ib.buf.window_append (i := ib.cur) (j := ib.cur + c) (k := ib.size)
      (by omega) hc
    have hlen : (ib.buf.window ib.cur (ib.cur + c)).length = c := by
      rw [Bytes.length_window _ (by omega)]
      omega
    have hr : s.rest = ib.buf.window ib.cur (ib.cur + c) ++
        (ib.buf.window (ib.cur + c) ib.size ++ p) := by
      rw [← List.append_assoc, hsplit, hrest]
    have htake : s.rest.take c = ib.buf.window ib.cur (ib.cur + c) := by
      rw [hr, List.take_left' hlen]
    have hdrop : s.rest.drop c = ib.buf.window (ib.cur + c) ib.size ++ p := by
      rw [hr, List.drop_left' hlen]
    have hsame : SameFeed ib { ib with cur := ib.cur + c } := ⟨rfl, rfl, rfl, rfl, rfl⟩
    refine ⟨htake, ?_, hsize, .opened p (f.same hsame hp) hc hsize hdrop.symm heof hend hst⟩
    rw [hr, List.length_append, hlen]
    omega

/-- The loop of `bread`. -/
theorem breadLoop_spec (fuel : Nat) : ∀ (n : Nat) (acc : List UInt8) (io : Io δ) (s : Src),
    f.ready io.dev → io.ib.fd = ch.fi → n ≤ fuel → s.start = none →
    SrcRel f io.ib (ch.unread io.dev) s →
    (∃ io', breadLoop fuel n acc io = some (none, io') ∧ ch.ReadLost io.dev io'.dev) ∨
    ∃ io', breadLoop fuel n acc io = some (some (acc ++ (s.bread n).1), io') ∧
      Frame ch io io' ∧ SrcRel f io'.ib (ch.unread io'.dev) (s.bread n).2 := by
  induction fuel with
  | zero =>
    intro n acc io s hl hfd hn hst hr
    obtain rfl : n = 0 := by omega
    rw [Src.bread_zero hst]
    exact .inr ⟨io, by simp [breadLoop], .refl (f.live hl), hr⟩
  | succ fuel ih =>
    intro n acc io s hl hfd hn hst hr
    rcases n with _ | n
    · rw [Src.bread_zero hst]
      exact .inr ⟨io, by simp [breadLoop], .refl (f.live hl), hr⟩
    rw [breadLoop]
    rcases breadRefill_spec hl hfd hst hr with
      ⟨io₁, h, hlost⟩ | ⟨io₁, h, hfr, hnil, hr₁⟩ | ⟨io₁, h, hfr, hr₁, hready⟩
    · exact .inl ⟨io₁, by rw [h]; rfl, hlost⟩
    · rw [Src.bread_end hst hnil (Nat.succ_pos n), List.append_nil]
      exact .inr ⟨io₁, by rw [h]; rfl, hfr, hr₁⟩
    rw [h]
    simp only [Option.bind_eq_bind, Option.bind_some]
    rcases hready with hlt | ⟨heof, hcs, hnil⟩
    · rw [if_neg (by omega)]
      obtain ⟨c, hc⟩ : ∃ c, c = min (io₁.ib.size - io₁.ib.cur) (n + 1) := ⟨_, rfl⟩
      rw [← hc]
      obtain ⟨htake, hcle, hsize, hr₂⟩ := hr₁.take hst (c := c) (by omega)
      rw [Bytes.load_eq _ (by omega), ← htake, Src.bread_split hst (by omega) hcle]
      simp only [Option.bind_some, ← List.append_assoc]
      rcases ih (n + 1 - c) (acc ++ s.rest.take c)
        { io₁ with ib := { io₁.ib with cur := io₁.ib.cur + c } } (s.skip c) (f.kept hl hfr.kept)
        (hfr.fd.trans hfd) (by omega) hst hr₂ with ⟨io₂, h₂, hlost⟩ | ⟨io₂, h₂, hfr₂, hr₃⟩
      · exact .inl ⟨io₂, h₂, hfr.kept.lost hlost⟩
      · exact .inr ⟨io₂, h₂, hfr.trans ⟨hfr₂.kept, hfr₂.accepted, hfr₂.fd, hfr₂.ob, hfr₂.ebuf,
          hfr₂.data⟩, hr₃⟩
    · rw [if_pos ⟨by omega, heof⟩, Src.bread_end hst hnil (Nat.succ_pos n), List.append_nil]
      refine .inr ⟨io₁, rfl, hfr, ?_⟩
      cases hr₁ with
      | fresh hs => exact absurd hst (f.start_some hs)
      | opened p hp hcur hsize hrest he hun _ =>
        exact .opened p hp hcur hsize hrest heof.symm hun hst

theorem Src.probe_start (s : Src) : s.probe.start = none := by
  unfold Src.probe
  split <;> simp_all

theorem Src.probe_rest (s : Src) : s.probe.rest = s.rest := by
  unfold Src.probe
  split <;> rfl

theorem Src.probe_past (s : Src) : s.probe.past = s.past := by
  unfold Src.probe
  split <;> rfl

theorem Src.bread_probe (s : Src) (n : Nat) : s.probe.bread n = s.bread n := by
  unfold Src.probe
  split <;> simp_all [Src.bread, Src.probe]

/-- The first statement of `bread` and `bpeek`. -/
theorem probe_spec {io : Io δ} {s : Src} (hl : f.ready io.dev) (hfd : io.ib.fd = ch.fi)
    (hr : SrcRel f io.ib (ch.unread io.dev) s) :
    (∃ io', probe io = some (false, io') ∧ ch.ReadLost io.dev io'.dev) ∨
    ∃ io', probe io = some (true, io') ∧ Frame ch io io' ∧
      SrcRel f io'.ib (ch.unread io'.dev) s.probe := by
  cases hr with
  | opened p hp hcur hsize hrest heof hend hst =>
    refine .inr ⟨io, ?_, .refl (f.live hl), ?_⟩
    · rw [probe, if_neg (f.opened hp)]
    · rw [Src.probe_of_none hst]
      exact .opened p hp hcur hsize hrest heof hend hst
  | fresh hs =>
    rcases f.probe_law hl hfd hs with hlost | ⟨io', p, h, hfr, hp, hcur, hsize, hrest, heof, hend⟩
    · exact .inl hlost
    · exact .inr ⟨io', h, hfr, .opened p hp hcur hsize (hrest.trans s.probe_rest.symm) heof hend
        s.probe_start⟩

/-- `bread` delivers the next bytes of the source. -/
theorem bread_spec (n : Nat) {io : Io δ} {s : Src} (hl : f.ready io.dev)
    (hfd : io.ib.fd = ch.fi) (hr : SrcRel f io.ib (ch.unread io.dev) s) :
    (∃ io', bread n io = some (none, io') ∧ ch.ReadLost io.dev io'.dev) ∨
    ∃ io', bread n io = some (some (s.bread n).1, io') ∧ Frame ch io io' ∧
      SrcRel f io'.ib (ch.unread io'.dev) (s.bread n).2 := by
  unfold bread
  rcases probe_spec hl hfd hr with ⟨io₁, h, hlost⟩ | ⟨io₁, h, hfr, hr₁⟩
  · exact .inl ⟨io₁, by rw [h]; rfl, hlost⟩
  · rw [h]
    simp only [Option.bind_eq_bind, Option.bind_some, if_true]
    rcases breadLoop_spec n n [] io₁ s.probe (f.kept hl hfr.kept) (hfr.fd.trans hfd) (Nat.le_refl n)
      s.probe_start hr₁ with ⟨io₂, h₂, hlost⟩ | ⟨io₂, h₂, hfr₂, hr₂⟩
    · exact .inl ⟨io₂, h₂, hfr.kept.lost hlost⟩
    · rw [Src.bread_probe] at h₂ hr₂
      exact .inr ⟨io₂, h₂, hfr.trans hfr₂, hr₂⟩

theorem Src.bpeek_end {s : Src} (hr : s.rest = []) :
    s.bpeek = (.eof, { s.probe with eof := true }) := by
  rw [Src.bpeek, hr]
  simp only [s.probe_start, s.probe_rest, s.probe_past, hr]

theorem Src.bpeek_char {s : Src} {c : UInt8} {cs : List UInt8} (hr : s.rest = c :: cs) :
    s.bpeek = (.char c, s.probe) := by
  rw [Src.bpeek, hr]

/-- `bpeek` answers the next byte of the source. -/
theorem bpeek_spec {io : Io δ} {s : Src} (hl : f.ready io.dev) (hfd : io.ib.fd = ch.fi)
    (hr : SrcRel f io.ib (ch.unread io.dev) s) :
    (∃ io', bpeek io = some (.err, io') ∧ ch.ReadLost io.dev io'.dev) ∨
    ∃ io', bpeek io = some (s.bpeek.1, io') ∧ Frame ch io io' ∧
      SrcRel f io'.ib (ch.unread io'.dev) s.bpeek.2 := by
  unfold bpeek
  rcases probe_spec hl hfd hr with ⟨io₁, h, hlost⟩ | ⟨io₁, h, hfr, hr₁⟩
  · exact .inl ⟨io₁, by rw [h]; rfl, hlost⟩
  have hst := s.probe_start
  have hrest' := s.probe_rest
  have hpeekEnd := @Src.bpeek_end s
  have hpeekChar := @Src.bpeek_char s
  rw [h]
  simp only [Option.bind_eq_bind, Option.bind_some, not_true_eq_false, if_false]
  generalize s.probe = t at *
  cases hr₁ with
  | fresh hs => exact absurd hst (f.start_some hs)
  | opened p hp hcur hsize hrest heof hend _ =>
  rw [hrest'] at hrest
  by_cases hdone : io₁.ib.eof = true ∧ io₁.ib.cur = io₁.ib.size
  · have hnil : s.rest = [] := by
      rw [← hrest, hdone.2, Bytes.window_self, hend hdone.1]
      rfl
    rw [if_pos hdone, hpeekEnd hnil]
    exact .inr ⟨io₁, rfl, hfr, .opened p hp hcur hsize (hrest.trans hrest'.symm) hdone.1.symm
      hend hst⟩
  rw [if_neg hdone]
  by_cases hlt : io₁.ib.cur < io₁.ib.size
  · rw [if_pos hlt, Bytes.load_eq _ (by omega)]
    have hw := io₁.ib.buf.window_append (i := io₁.ib.cur) (j := io₁.ib.cur + 1)
      (k := io₁.ib.size) (by omega) (by omega)
    obtain ⟨c, hc⟩ : ∃ c, io₁.ib.buf.window io₁.ib.cur (io₁.ib.cur + 1) = [c] := by
      refine List.length_eq_one_iff.mp ?_
      rw [Bytes.length_window _ (by omega)]
      omega
    rw [hc] at hw
    have hcons : s.rest = c :: (io₁.ib.buf.window (io₁.ib.cur + 1) io₁.ib.size ++ p) := by
      rw [← hrest, ← hw]
      rfl
    rw [hpeekChar hcons]
    exact .inr ⟨io₁, by simp [hc], hfr, .opened p hp hcur hsize (hrest.trans hrest'.symm) heof
      hend hst⟩
  rw [if_neg hlt]
  have hcs : io₁.ib.cur = io₁.ib.size := by omega
  rw [hcs, Bytes.window_self, List.nil_append] at hrest
  obtain ⟨io₂, hdrop, hfr₂, hu, hib⟩ := dropBuffer_spec hfr.kept.live hsize
  have h2cur : io₂.ib.cur = 0 := by rw [hib]
  have h2size : io₂.ib.size = 0 := by rw [hib]
  have h2eof : io₂.ib.eof = io₁.ib.eof := by rw [hib]
  have hne : ¬ io₁.ib.eof = true := fun he => hdone ⟨he, hcs⟩
  have hp₂ : f.holds io₂.ib (ch.unread io₂.dev) p := by
    rw [hu]
    exact f.same ⟨by rw [hib], by rw [hib], by rw [hib], by rw [hib], by rw [hib]⟩ hp
  rw [hdrop]
  simp only [Option.bind_some]
  rcases f.fill_law (f.kept hl (hfr.trans hfr₂).kept) (hfr₂.fd.trans (hfr.fd.trans hfd)) hp₂ with
    ⟨io₃, hfill, hlost⟩ | ⟨bs, p', io₃, hfill, hfr₃, hre, hp₃, hpp, hnil, hb, hw⟩
  · exact .inl ⟨io₃, by rw [hfill]; rfl, hfr.kept.lost (hfr₂.kept.lost hlost)⟩
  have hsame : ∀ eof size, SameFeed io₃.ib { io₃.ib with eof, size } :=
    fun _ _ => ⟨rfl, rfl, rfl, rfl, rfl⟩
  have hfr₄ : ∀ eof size, Frame ch io { io₃ with ib := { io₃.ib with eof, size } } :=
    fun _ _ => ((hfr.trans hfr₂).trans hfr₃).trans
      ⟨.refl hfr₃.kept.live, rfl, rfl, rfl, rfl, rfl⟩
  rw [hfill]
  rcases bs with _ | ⟨c, cs⟩
  · obtain rfl := hnil rfl
    obtain rfl : p' = [] := by simpa using hpp.symm
    rw [hpeekEnd hrest.symm]
    refine .inr ⟨_, rfl, hfr₄ _ _, .opened [] (f.same (hsame _ _) hp₃) ?_ ?_ ?_ rfl
      (fun _ => rfl) hst⟩
    · simp [hre.cur, h2cur]
    · simp [hre.size, h2size]
    · simp only [hre.cur, hre.size, h2cur, h2size, Bytes.window_self]
      exact hrest.trans hrest'.symm
  · have hcons : s.rest = c :: (cs ++ p') := by
      rw [← hrest, hpp]
      rfl
    have hload : io₃.ib.buf.load 0 1 = some [c] := by
      rw [Bytes.load_eq _ (by decide)]
      have h1 := io₃.ib.buf.window_append (i := 0) (j := 1) (k := (c :: cs).length) (by omega)
        (by simp)
      rw [hw] at h1
      have hl1 : (io₃.ib.buf.window 0 1).length = 1 := by
        rw [Bytes.length_window _ (by decide)]
      obtain ⟨x, hx⟩ := List.length_eq_one_iff.mp hl1
      rw [hx] at h1
      obtain rfl : x = c := by simpa using (List.cons.inj h1).1
      simpa using hx
    rw [hpeekChar hcons]
    refine .inr ⟨_, ?_, hfr₄ io₃.ib.eof (c :: cs).length, .opened p' (f.same (hsame _ _) hp₃) ?_ ?_
      ?_ ?_ ?_ hst⟩
    · simp only [Option.bind_some, List.length_cons, hload]
      rfl
    · simp [hre.cur, h2cur]
    · simpa using hb
    · have hw' : io₃.ib.buf.window 0 (cs.length + 1) = c :: cs := hw
      simp only [hre.cur, h2cur, List.length_cons, hw', hrest', hcons]
      rfl
    · simp [hre.eof, h2eof, heof]
    · simp [hre.eof, h2eof, hne]

/-! ## The feed of a binary input -/

/-- The refill of a binary input. -/
theorem fill_binary {io : Io δ} (hl : ch.live io.dev) (hfd : io.ib.fd = ch.fi)
    (ha : io.ib.isarmor = .no) :
    (∃ dev, fill io = some (.ioerr, { io with dev }) ∧ ch.ReadLost io.dev dev) ∨
    ∃ bs buf dev, fill io = some (.got bs.length, { io with ib := { io.ib with buf }, dev }) ∧
      ch.Kept io.dev dev ∧ ch.accepted dev = ch.accepted io.dev ∧
      ch.unread io.dev = bs ++ ch.unread dev ∧ (bs = [] → ch.unread io.dev = []) ∧
      bs.length ≤ IOBUFSIZE ∧ buf.window 0 bs.length = bs := by
  have hno : ¬ io.ib.isarmor.holds = true := by simp [ha, Armored.holds]
  unfold fill
  rw [if_neg hno, hfd]
  rcases ch.read_cases hl (n := IOBUFSIZE) (by decide) with
    ⟨d', h, hlost, -, -⟩ | ⟨bs, d', h, hk, hb, hu, he, hacc⟩
  · exact .inl ⟨d', by rw [h], hlost⟩
  · obtain ⟨buf, hbuf⟩ := io.ib.buf.store_isSome 0 bs (by omega)
    refine .inr ⟨bs, buf, d', ?_, hk, hacc, hu, he, hb, ?_⟩
    · rw [h]
      simp [hbuf]
    · simpa using Bytes.window_store_zero hbuf (Nat.zero_le _)

/-- The probe of a binary input. -/
theorem probe_binary {io : Io δ} (hl : ch.live io.dev) (hfd : io.ib.fd = ch.fi)
    (ha : io.ib.isarmor = .unchecked) (heof : io.ib.eof = false)
    (harm : ¬ armorfirst <+: ch.unread io.dev) :
    (∃ io', probe io = some (false, io') ∧ ch.ReadLost io.dev io'.dev) ∨
    ∃ buf dev, probe io = some (true, { io with
        ib := { io.ib with
          buf, eof := (ch.unread io.dev).length < armorfirst.length,
          size := ((ch.unread io.dev).take armorfirst.length).length, isarmor := .no }, dev }) ∧
      ch.Kept io.dev dev ∧ ch.accepted dev = ch.accepted io.dev ∧
      ch.unread dev = (ch.unread io.dev).drop armorfirst.length ∧
      buf.window 0 ((ch.unread io.dev).take armorfirst.length).length =
        (ch.unread io.dev).take armorfirst.length := by
  rw [probe, if_pos ha, isarmor, hfd]
  obtain ⟨bs, fin, d', h, hacc, hcases⟩ := ch.readall_spec hl armorfirst.length
  have hb : bs.length ≤ armorfirst.length := by
    rcases hcases with ⟨-, -, hb, -⟩ | ⟨-, hbs, -⟩
    · exact hb
    · rw [hbs, List.length_take]
      omega
  have hfirst : armorfirst.length = 35 := by decide
  obtain ⟨buf, hbuf⟩ := io.ib.buf.store_isSome 0 bs (by rw [IOBUFSIZE]; omega)
  rw [h]
  simp only [Option.bind_eq_bind, Option.bind_some, hbuf]
  rcases hcases with ⟨rfl, hlost, -⟩ | ⟨hk, hbs, hun, rfl⟩
  · exact .inl ⟨_, rfl, hlost⟩
  have hne : bs ≠ armorfirst := by
    rintro rfl
    exact harm (hbs ▸ List.take_prefix _ _)
  have hfin : readEnd armorfirst.length (ch.unread io.dev) ≠ .fail := by
    unfold readEnd
    split <;> simp
  have heofval : decide (readEnd armorfirst.length (ch.unread io.dev) = .eof) =
      decide ((ch.unread io.dev).length < armorfirst.length) := by
    rw [decide_eq_decide]
    unfold readEnd
    split <;> simp <;> omega
  rw [if_neg hfin]
  simp only [hne, if_false, ite_self]
  refine .inr ⟨buf, d', ?_, hk, hacc, hun, ?_⟩
  · simp [heof, heofval, hbs]
  · rw [← hbs]
    simpa using Bytes.window_store_zero hbuf (Nat.zero_le _)

variable (ch) in
/-- A binary input feeds its unread bytes. -/
def binaryFeed : Feed ch where
  ready := ch.live
  live := id
  sound := fun h => h.live
  next := fun _ hl _ => hl
  holds ib u p := ib.isarmor = .no ∧ u = p
  start ib u s := ib.isarmor = .unchecked ∧ ib.cur = 0 ∧ ib.eof = false ∧
    ¬ armorfirst <+: u ∧ s = Src.binary u
  same := by
    rintro ib ib' u p hs ⟨ha, hu⟩
    exact ⟨hs.isarmor.trans ha, hu⟩
  start_some := by
    rintro ib u s ⟨-, -, -, -, rfl⟩
    simp [Src.binary]
  start_eof := by
    rintro ib u s ⟨-, -, heof, -, rfl⟩
    exact heof.symm
  opened := by
    rintro ib u p ⟨ha, -⟩
    simp [ha]
  fill_law := by
    rintro io p hl hfd ⟨ha, rfl⟩
    rcases fill_binary hl hfd ha with
      ⟨d', h, hlost⟩ | ⟨bs, buf, d', h, hk, hacc, hu, hnil, hb, hw⟩
    · exact .inl ⟨_, h, hlost⟩
    · exact .inr ⟨bs, ch.unread d', _, h, ⟨hk, hacc, rfl, rfl, rfl, rfl⟩,
        ⟨rfl, rfl, rfl, rfl, rfl, rfl, rfl⟩, ⟨ha, rfl⟩, hu, hnil, hb, hw⟩
  probe_law := by
    rintro io s hl hfd ⟨ha, hcur, heof, harm, rfl⟩
    rcases probe_binary hl hfd ha heof harm with hlost | ⟨buf, d', h, hk, hacc, hu, hw⟩
    · exact .inl hlost
    have hfirst : armorfirst.length = 35 := by decide
    refine .inr ⟨_, ch.unread d', h, ⟨hk, hacc, rfl, rfl, rfl, rfl⟩, ⟨rfl, rfl⟩, ?_, ?_, ?_, rfl,
      ?_⟩
    · simp [hcur]
    · simp only [List.length_take]
      rw [IOBUFSIZE]
      omega
    · simp only [hcur, hw, hu, List.take_append_drop]
      rfl
    · intro he
      rw [hu]
      have hlt : (ch.unread io.dev).length < armorfirst.length := by simpa using he
      exact List.drop_of_length_le (by omega)

end Agecrypt
