import Agecrypt.Agec.ArmorReads

/-!
# The reader at every position

What lies in front of the reader is known at every moment, also behind a
call that reported an error: the bytes in the buffer and those that the
refills will deliver, and whether the end of the input will be accepted.
Every `bread` and `bpeek` delivers the next of these bytes or reports an
error, within the bounds of the buffers, with one exception: `bpeek` on an
empty buffer takes the -2 of a refill for a count.

Behind a part of the ending line nothing more is accepted, and a probe that
failed is taken for an armor header line.  `Ibuf.coming` covers these cases
too.
-/

namespace Agecrypt

variable {δ : Type} [inst : Descr δ] {ch : Chan δ}

/-! ## What the refills will deliver -/

/-- What an input of this text decodes to, and whether its end is accepted. -/
def decoded (text : List UInt8) : List UInt8 × Bool :=
  if armorfirst.isPrefixOf text then unarmor (text.drop armorfirst.length) else (text, true)

/-- What the armor decoder will deliver. -/
def Ibuf.undecoded (ib : Ibuf) (unread : List UInt8) : List UInt8 × Bool :=
  if ib.aendpos = 0 then
    (ib.abuf.window ib.acur ib.asize ++ (unarmor unread).1, (unarmor unread).2)
  else (ib.abuf.window ib.acur ib.asize, unread.isEmpty)

/-- What the refills will deliver, and whether the end is accepted. -/
def Ibuf.coming (ib : Ibuf) (unread : List UInt8) : List UInt8 × Bool :=
  match ib.isarmor with
  | .unchecked => decoded unread
  | .no => (unread, true)
  | .yes | .failed => ib.undecoded unread

/-- What lies in front of the reader. -/
def Ibuf.ahead (ib : Ibuf) (unread : List UInt8) : List UInt8 × Bool :=
  (ib.buf.window ib.cur ib.size ++ (ib.coming unread).1, (ib.coming unread).2)

theorem Ibuf.coming_congr {ib ib' : Ibuf} (hs : SameFeed ib ib') (u : List UInt8) :
    ib'.coming u = ib.coming u := by
  unfold Ibuf.coming Ibuf.undecoded
  rw [hs.isarmor, hs.aendpos, hs.abuf, hs.acur, hs.asize]

theorem Pending.coming {ib : Ibuf} {u p : List UInt8} {ok : Bool} (ho : Opened ib)
    (hp : Pending ib u p ok) : ib.coming u = (p, ok) := by
  unfold Ibuf.coming Ibuf.undecoded
  rw [ho.armor]
  rcases hp with ⟨hend, rfl, rfl⟩ | ⟨hend, rfl, rfl, rfl⟩
  · simp only [hend, if_true]
  · have hne : ib.aendpos ≠ 0 := by
      rw [hend]
      decide
    simp only [hne, if_false, List.isEmpty_nil]

/-! ## The decoder does not look at `isarmor` -/

/-- The state with another value of `isarmor`. -/
def Io.mode (a : Armored) (io : Io δ) : Io δ := { io with ib := { io.ib with isarmor := a } }

theorem areadBlock_mode (a : Armored) (raw : List UInt8) (io : Io δ) :
    areadBlock raw (io.mode a) = (areadBlock raw io).map fun x => (x.1, x.2.mode a) := by
  unfold areadBlock Io.mode
  simp only
  split
  · rfl
  split
  · rfl
  rcases io.ib.abuf.store 0 _ with _ | abuf
  · rfl
  simp only [Option.bind_eq_bind, Option.bind_some]
  split
  · rcases endskip io.ib.fd _ io.dev with _ | x <;> rfl
  split
  · rcases Descr.ageread io.ib.fd 1 io.dev with ⟨_ | _ | ⟨b, bs⟩, d'⟩ <;> rfl
  · rfl

theorem areadRefill_mode (a : Armored) (off : Nat) (io : Io δ) :
    areadRefill off (io.mode a) = (areadRefill off io).map fun x => (x.1, x.2.mode a) := by
  unfold areadRefill
  rw [show (io.mode a).ib.fd = io.ib.fd from rfl, show (io.mode a).dev = io.dev from rfl,
    show (io.mode a).ib.aendpos = io.ib.aendpos from rfl]
  rcases readall io.ib.fd IOABUFREADSIZE io.dev with _ | ⟨⟨raw, fin⟩, dev⟩
  · rfl
  simp only
  split
  · rfl
  split
  · split <;> rfl
  · exact areadBlock_mode a raw { io with dev }

theorem areadFetch_mode (a : Armored) (off : Nat) (io : Io δ) :
    areadFetch off (io.mode a) = (areadFetch off io).map fun x => (x.1, x.2.mode a) := by
  unfold areadFetch
  rw [show (io.mode a).ib.acur = io.ib.acur from rfl,
    show (io.mode a).ib.asize = io.ib.asize from rfl]
  by_cases hac : io.ib.acur = io.ib.asize
  · rw [if_pos hac, if_pos hac]
    exact areadRefill_mode a off { io with ib := { io.ib with acur := 0, asize := 0 } }
  · rw [if_neg hac, if_neg hac]
    show (if io.ib.asize = 0 then areadRefill off (io.mode a) else some (none, io.mode a)) = _
    simp only
    split
    · exact areadRefill_mode a off io
    · rfl

theorem areadLoop_mode (a : Armored) (fuel : Nat) : ∀ (n off : Nat) (io : Io δ),
    areadLoop fuel n off (io.mode a) =
      (areadLoop fuel n off io).map fun x => (x.1, x.2.mode a) := by
  induction fuel with
  | zero =>
    intro n off io
    cases n <;> rfl
  | succ fuel ih =>
    intro n off io
    cases n with
    | zero => rfl
    | succ n =>
      rw [areadLoop, areadLoop, areadFetch_mode]
      rcases areadFetch off io with _ | ⟨_ | r, io₁⟩
      · rfl
      · simp only [Option.map_some, Option.bind_eq_bind, Option.bind_some]
        rw [show (io₁.mode a).ib.asize = io₁.ib.asize from rfl,
          show (io₁.mode a).ib.acur = io₁.ib.acur from rfl,
          show (io₁.mode a).ib.abuf = io₁.ib.abuf from rfl,
          show (io₁.mode a).ib.buf = io₁.ib.buf from rfl]
        rcases io₁.ib.abuf.load io₁.ib.acur _ with _ | bs
        · rfl
        simp only [Option.bind_some]
        rcases io₁.ib.buf.store off bs with _ | buf
        · rfl
        simp only [Option.bind_some]
        exact ih _ _ { io₁ with ib := { io₁.ib with buf, acur := io₁.ib.acur + _ } }
      · rfl

/-- A refill behind a failed probe is one behind the armor header line. -/
theorem fill_mode {io : Io δ} {a b : Armored} (ha : a.holds = true) (hb : b.holds = true)
    (hio : io.ib.isarmor = a) :
    fill io = (fill (io.mode b)).map fun x => (x.1, x.2.mode a) := by
  have hback : (io.mode b).mode a = io := by
    rw [← hio]
    rfl
  have h := areadLoop_mode a (IOBUFSIZE + 2) IOBUFSIZE 0 (io.mode b)
  rw [hback] at h
  have hb' : (io.mode b).ib.isarmor.holds = true := hb
  rw [fill, fill, if_pos (by rw [hio]; exact ha), if_pos hb', aread, aread]
  exact h

/-! ## Behind a part of the ending line -/

/-- The refill of an empty armor buffer. -/
theorem areadRefill_past (off : Nat) {io : Io δ} (hl : ch.live io.dev) (hfd : io.ib.fd = ch.fi)
    (hb : Bounded io.ib) (hend : io.ib.aendpos ≠ 0) :
    (∃ io', areadRefill off io = some (some .ioerr, io') ∧ ch.ReadLost io.dev io'.dev ∧
      Bounded io'.ib) ∨
    (ch.unread io.dev ≠ [] ∧ ∃ io', areadRefill off io = some (some .fmterr, io') ∧
      ch.live io'.dev ∧ Bounded io'.ib) ∨
    (ch.unread io.dev = [] ∧ ∃ dev, areadRefill off io = some (some (.got off), { io with dev }) ∧
      ch.Kept io.dev dev ∧ ch.unread dev = []) := by
  unfold areadRefill
  rw [hfd]
  obtain ⟨raw, fin, d', h, -, hcases⟩ := ch.readall_spec hl IOABUFREADSIZE
  rw [h]
  simp only
  rcases hcases with ⟨rfl, hlost, -⟩ | ⟨hk, rfl, hu, rfl⟩
  · exact .inl ⟨_, rfl, hlost, hb⟩
  have hfin : readEnd IOABUFREADSIZE (ch.unread io.dev) ≠ .fail := by
    unfold readEnd
    split <;> simp
  rw [if_neg hfin]
  have hsize : 0 < IOABUFREADSIZE := by decide
  by_cases hnil : ch.unread io.dev = []
  · refine .inr (.inr ⟨hnil, d', ?_, hk, by rw [hu, hnil, List.drop_nil]⟩)
    rw [hnil, List.take_nil, if_pos List.length_nil, if_neg hend]
  refine .inr (.inl ⟨hnil, ?_⟩)
  have hpos := List.length_pos_iff.mpr hnil
  rw [if_neg (by rw [List.length_take]; omega)]
  obtain ⟨k, hk33, hcheck⟩ := endcheck_pos (fun _ => 0)
    ((ch.unread io.dev).take IOABUFREADSIZE) (Nat.pos_of_ne_zero hend) hb.aendpos
  unfold areadBlock
  rw [hcheck]
  exact ⟨_, rfl, hk.live, hb.acur, hb.asize, hk33⟩

/-- Bytes in the armor buffer are delivered, and then the end of the input
decides. -/
theorem fill_past {io : Io δ} (hl : ch.live io.dev) (hfd : io.ib.fd = ch.fi)
    (hb : Bounded io.ib) (ha : io.ib.isarmor.holds = true) (hend : io.ib.aendpos ≠ 0) :
    (∃ io', fill io = some (.ioerr, io') ∧ ch.ReadLost io.dev io'.dev ∧ Bounded io'.ib) ∨
    (ch.unread io.dev ≠ [] ∧ ∃ io', fill io = some (.fmterr, io') ∧ ch.live io'.dev ∧
      Bounded io'.ib) ∨
    (ch.unread io.dev = [] ∧ ∃ buf dev, fill io = some (.got (io.ib.asize - io.ib.acur),
        { io with ib := { io.ib with buf, acur := 0, asize := 0 }, dev }) ∧
      ch.Kept io.dev dev ∧ ch.unread dev = [] ∧
      buf.window 0 (io.ib.asize - io.ib.acur) = io.ib.abuf.window io.ib.acur io.ib.asize) := by
  have hcur := hb.acur
  have hsize := hb.asize
  have h8190 : IOABUFREADSIZE = 65 * 126 := rfl
  have h8192 : IOBUFSIZE = 8 * 1024 := rfl
  -- the round that finds the armor buffer empty
  have hlast : ∀ (fuel n off : Nat) (io₁ : Io δ), ch.live io₁.dev → io₁.ib.fd = ch.fi →
      Bounded io₁.ib → io₁.ib.acur = io₁.ib.asize → io₁.ib.aendpos ≠ 0 →
      (∃ io', areadLoop (fuel + 1) (n + 1) off io₁ = some (.ioerr, io') ∧
        ch.ReadLost io₁.dev io'.dev ∧ Bounded io'.ib) ∨
      (ch.unread io₁.dev ≠ [] ∧ ∃ io', areadLoop (fuel + 1) (n + 1) off io₁ = some (.fmterr, io') ∧
        ch.live io'.dev ∧ Bounded io'.ib) ∨
      (ch.unread io₁.dev = [] ∧ ∃ dev, areadLoop (fuel + 1) (n + 1) off io₁ =
          some (.got off, { io₁ with ib := { io₁.ib with acur := 0, asize := 0 }, dev }) ∧
        ch.Kept io₁.dev dev ∧ ch.unread dev = []) := by
    intro fuel n off io₁ hl₁ hfd₁ hb₁ hac₁ hend₁
    rw [areadLoop, areadFetch, if_pos hac₁]
    simp only [if_true]
    have hb₂ : Bounded { io₁.ib with acur := 0, asize := 0 } :=
      ⟨Nat.le_refl 0, Nat.zero_le _, hb₁.aendpos⟩
    rcases @areadRefill_past δ _ ch off
        { io₁ with ib := { io₁.ib with acur := 0, asize := 0 } } hl₁ hfd₁ hb₂ hend₁ with
      ⟨io', h, hlost, hb'⟩ | ⟨hne, io', h, hl', hb'⟩ | ⟨hnil, dev, h, hk, hu⟩
    · exact .inl ⟨io', by rw [h]; rfl, hlost, hb'⟩
    · exact .inr (.inl ⟨hne, io', by rw [h]; rfl, hl', hb'⟩)
    · exact .inr (.inr ⟨hnil, dev, by rw [h]; rfl, hk, hu⟩)
  rw [fill, if_pos ha, aread]
  by_cases hac : io.ib.acur = io.ib.asize
  · have hwin : ∀ buf : Bytes IOBUFSIZE, buf.window 0 (io.ib.asize - io.ib.acur) =
        io.ib.abuf.window io.ib.acur io.ib.asize := by
      intro buf
      rw [hac, Nat.sub_self, Bytes.window_self, Bytes.window_self]
    rw [hac, Nat.sub_self] at hwin
    rcases hlast (IOBUFSIZE + 1) (IOBUFSIZE - 1) 0 io hl hfd hb hac hend with
      hlost | hfmt | ⟨hnil, dev, h, hk, hu⟩
    · exact .inl hlost
    · exact .inr (.inl hfmt)
    · rw [hac, Nat.sub_self]
      exact .inr (.inr ⟨hnil, io.ib.buf, dev, h, hk, hu, hwin _⟩)
  obtain ⟨c, hc⟩ : ∃ c, c = io.ib.asize - io.ib.acur := ⟨_, rfl⟩
  have hlen : (io.ib.abuf.window io.ib.acur (io.ib.acur + c)).length = c := by
    rw [Bytes.length_window _ (by omega)]
    omega
  have hasize : io.ib.acur + c = io.ib.asize := by omega
  obtain ⟨buf, hbuf⟩ := io.ib.buf.store_isSome 0 (io.ib.abuf.window io.ib.acur (io.ib.acur + c))
    (by omega)
  have hwin := Bytes.window_store_zero hbuf (Nat.zero_le _)
  simp only [hlen, List.drop_zero] at hwin
  have hround : areadLoop (IOBUFSIZE + 2) IOBUFSIZE 0 io =
      areadLoop (IOBUFSIZE + 1) (IOBUFSIZE - c) c
        { io with ib := { io.ib with buf, acur := io.ib.acur + c } } := by
    rw [show areadLoop (IOBUFSIZE + 2) IOBUFSIZE 0 io =
      areadLoop (IOBUFSIZE + 1 + 1) (IOBUFSIZE - 1 + 1) 0 io from rfl, areadLoop, areadFetch,
      if_neg hac, if_neg (by omega)]
    simp only [Option.bind_eq_bind, Option.bind_some]
    rw [show min (io.ib.asize - io.ib.acur) (IOBUFSIZE - 1 + 1) = c by omega,
      Bytes.load_eq _ (by omega)]
    simp only [Option.bind_some, hbuf, Nat.zero_add]
    rfl
  rw [hround, ← hc]
  have hb₁ : Bounded { io.ib with buf, acur := io.ib.acur + c } :=
    ⟨Nat.le_of_eq hasize, hsize, hb.aendpos⟩
  rcases hlast IOBUFSIZE (IOBUFSIZE - c - 1) c
      { io with ib := { io.ib with buf, acur := io.ib.acur + c } } hl hfd hb₁ hasize hend with
    hlost | hfmt | ⟨hnil, dev, h, hk, hu⟩
  · rw [show IOBUFSIZE - c - 1 + 1 = IOBUFSIZE - c by omega] at hlost
    exact .inl hlost
  · rw [show IOBUFSIZE - c - 1 + 1 = IOBUFSIZE - c by omega] at hfmt
    exact .inr (.inl hfmt)
  · rw [show IOBUFSIZE - c - 1 + 1 = IOBUFSIZE - c by omega] at h
    refine .inr (.inr ⟨hnil, buf, dev, h, hk, hu, ?_⟩)
    rw [hwin, hasize]

/-! ## Every input is a flow -/

theorem Ibuf.coming_of_holds {ib : Ibuf} (ha : ib.isarmor.holds = true)
    (hun : ib.isarmor ≠ .unchecked) (u : List UInt8) : ib.coming u = ib.undecoded u := by
  unfold Ibuf.coming
  rcases h : ib.isarmor with _ | _ | _ | _
  · exact absurd h hun
  · rw [h] at ha
    cases ha
  · rfl
  · rfl

/-- A refill behind a probe that took the input for armored, or that failed. -/
private theorem fill_undecoded {io : Io δ} {p : List UInt8} {ok : Bool} (hl : ch.live io.dev)
    (hfd : io.ib.fd = ch.fi) (hb : Bounded io.ib) (ha : io.ib.isarmor.holds = true)
    (hp : io.ib.undecoded (ch.unread io.dev) = (p, ok)) :
    (∃ io', fill io = some (.ioerr, io') ∧ ch.ReadLost io.dev io'.dev ∧ Bounded io'.ib) ∨
    (ok = false ∧ p.length < IOBUFSIZE ∧ ∃ io', fill io = some (.fmterr, io') ∧
      ch.live io'.dev ∧ Bounded io'.ib) ∨
    ((ok = true ∨ IOBUFSIZE ≤ p.length) ∧
      ∃ io', fill io = some (.got (min IOBUFSIZE p.length), io') ∧ Unharmed ch io io' ∧
        Refilled io.ib io'.ib ∧ Bounded io'.ib ∧
        io'.ib.undecoded (ch.unread io'.dev) = (p.drop IOBUFSIZE, ok) ∧
        io'.ib.buf.window 0 (min IOBUFSIZE p.length) = p.take IOBUFSIZE) := by
  unfold Ibuf.undecoded at hp
  by_cases hend : io.ib.aendpos = 0
  · rw [if_pos hend] at hp
    obtain ⟨hpe, hoke⟩ := Prod.mk.inj hp
    have ho : Opened (io.mode .yes).ib := ⟨⟨hb.acur, hb.asize, hb.aendpos⟩, rfl⟩
    have hpend : Pending (io.mode .yes).ib (ch.unread io.dev) p ok :=
      .inl ⟨hend, hpe.symm, hoke.symm⟩
    rw [fill_mode (b := .yes) ha rfl rfl]
    have hl' : ch.live (io.mode .yes).dev := hl
    rcases fill_behind hl' hfd ho hpend with
      ⟨io', h, hlost, hb'⟩ | ⟨hok, hlen, io', h, hl', hb'⟩ | ⟨hok, io', h, hu, hp', ho', hre, hw⟩
    · exact .inl ⟨io'.mode io.ib.isarmor, by rw [h]; rfl, hlost, hb'.acur, hb'.asize, hb'.aendpos⟩
    · exact .inr (.inl ⟨hok, hlen, io'.mode io.ib.isarmor, by rw [h]; rfl, hl', hb'.acur, hb'.asize,
        hb'.aendpos⟩)
    have hund := hp'.coming ho'
    rw [Ibuf.coming_of_holds (by rw [ho'.armor]; rfl) (by rw [ho'.armor]; decide)] at hund
    exact .inr (.inr ⟨hok, io'.mode io.ib.isarmor, by rw [h]; rfl,
      ⟨hu.live, hu.steady, hu.fails, hu.fd⟩,
      ⟨hre.cur, hre.size, hre.eof, rfl, hre.recording, hre.recfail, hre.record⟩,
      ⟨ho'.acur, ho'.asize, ho'.aendpos⟩, hund, hw⟩)
  · rw [if_neg hend] at hp
    obtain ⟨rfl, rfl⟩ := Prod.mk.inj hp
    have hcur := hb.acur
    have hsize := hb.asize
    have h8190 : IOABUFREADSIZE = 65 * 126 := rfl
    have h8192 : IOBUFSIZE = 8 * 1024 := rfl
    have hlen : (io.ib.abuf.window io.ib.acur io.ib.asize).length = io.ib.asize - io.ib.acur :=
      Bytes.length_window _ hsize
    rcases fill_past hl hfd hb ha hend with
      hlost | ⟨hne, io', h, hl', hb'⟩ | ⟨hnil, buf, dev, h, hk, hu, hw⟩
    · exact .inl hlost
    · refine .inr (.inl ⟨?_, by omega, io', h, hl', hb'⟩)
      rw [List.isEmpty_eq_false_iff]
      exact hne
    · refine .inr (.inr ⟨.inl (by rw [hnil]; rfl),
        { io with ib := { io.ib with buf, acur := 0, asize := 0 }, dev }, ?_,
        ⟨hk.live, hk.steady, hk.fails, rfl⟩, ⟨rfl, rfl, rfl, rfl, rfl, rfl, rfl⟩,
        ⟨Nat.le_refl 0, Nat.zero_le _, hb.aendpos⟩, ?_, ?_⟩)
      · rw [hlen, Nat.min_eq_right (by omega)]
        exact h
      · unfold Ibuf.undecoded
        rw [if_neg hend, hu, hnil, List.drop_of_length_le (by omega), Bytes.window_self]
      · rw [hlen, Nat.min_eq_right (by omega), List.take_of_length_le (by omega)]
        exact hw

theorem Ibuf.coming_of_no {ib : Ibuf} (hno : ib.isarmor = .no) (u : List UInt8) :
    ib.coming u = (u, true) := by
  unfold Ibuf.coming
  rw [hno]

/-- Behind the probe, an input that is not held for armored is binary. -/
private theorem no_of_not_holds {b : Armored} (ha : b.holds ≠ true) (hun : b ≠ .unchecked) :
    b = .no := by
  cases b with
  | unchecked => exact absurd rfl hun
  | no => rfl
  | yes => exact absurd rfl ha
  | failed => exact absurd rfl ha

/-- The outcomes of a refill behind the probe. -/
private theorem fill_coming {io : Io δ} {p : List UInt8} {ok : Bool} (hl : ch.live io.dev)
    (hfd : io.ib.fd = ch.fi) (hb : Bounded io.ib) (hun : io.ib.isarmor ≠ .unchecked)
    (hp : io.ib.coming (ch.unread io.dev) = (p, ok)) :
    (∃ io', fill io = some (.ioerr, io') ∧ ch.ReadLost io.dev io'.dev ∧ Bounded io'.ib) ∨
    (ok = false ∧ p.length < IOBUFSIZE ∧ ∃ io', fill io = some (.fmterr, io') ∧
      ch.live io'.dev ∧ Bounded io'.ib) ∨
    ((ok = true ∨ IOBUFSIZE ≤ p.length) ∧
      ∃ k io', fill io = some (.got k, io') ∧ Unharmed ch io io' ∧ Refilled io.ib io'.ib ∧
        Bounded io'.ib ∧ io'.ib.coming (ch.unread io'.dev) = (p.drop k, ok) ∧ (k = 0 → p = []) ∧
        k ≤ IOBUFSIZE ∧ k ≤ p.length ∧ io'.ib.buf.window 0 k = p.take k) := by
  by_cases ha : io.ib.isarmor.holds = true
  · rw [Ibuf.coming_of_holds ha hun] at hp
    rcases fill_undecoded hl hfd hb ha hp with
      hlost | hrefused | ⟨hok, io', h, hu, hre, hb', hp', hw⟩
    · exact .inl hlost
    · exact .inr (.inl hrefused)
    have hpos : 0 < IOBUFSIZE := by decide
    have hun' : io'.ib.isarmor ≠ .unchecked := by
      rw [hre.isarmor]
      exact hun
    have hdrop : p.drop (min IOBUFSIZE p.length) = p.drop IOBUFSIZE :=
      List.drop_eq_drop_iff.mpr (by omega)
    refine .inr (.inr ⟨hok, _, io', h, hu, hre, hb', ?_, fun hz => ?_, Nat.min_le_left _ _,
      Nat.min_le_right _ _, hw.trans ?_⟩)
    · rw [Ibuf.coming_of_holds (by rw [hre.isarmor]; exact ha) hun', hp', hdrop]
    · exact List.length_eq_zero_iff.mp (by omega)
    · exact List.take_eq_take_iff.mpr (by omega)
  · have hno := no_of_not_holds ha hun
    rw [Ibuf.coming_of_no hno] at hp
    obtain ⟨rfl, rfl⟩ := Prod.mk.inj hp
    rcases fill_binary hl hfd hno with
      ⟨dev, h, hlost⟩ | ⟨bs, buf, dev, h, hk, hacc, hu, hnil, hle, hw⟩
    · exact .inl ⟨_, h, hlost, hb⟩
    refine .inr (.inr ⟨.inl rfl, _, _, h, ⟨hk.live, hk.steady, hk.fails, rfl⟩,
      ⟨rfl, rfl, rfl, rfl, rfl, rfl, rfl⟩, ⟨hb.acur, hb.asize, hb.aendpos⟩, ?_,
      fun hz => hnil (List.length_eq_zero_iff.mp hz), hle, ?_, ?_⟩)
    · rw [Ibuf.coming_of_no (by exact hno), hu, List.drop_left]
    · rw [hu, List.length_append]
      omega
    · rw [hw, hu, List.take_left]

variable (ch) in
/-- Any input behind the probe. -/
def anyFlow : Flow ch where
  holds ib u p ok := Bounded ib ∧ ib.isarmor ≠ .unchecked ∧ ib.coming u = (p, ok)
  spoilt ib := Bounded ib ∧ ib.isarmor ≠ .unchecked
  same := by
    rintro ib ib' u p ok hs ⟨hb, hun, hp⟩
    exact ⟨hb.congr hs, by rw [hs.isarmor]; exact hun, (Ibuf.coming_congr hs u).trans hp⟩
  fill_law := by
    rintro io p ok hl hfd ⟨hb, hun, hp⟩
    have hspoilt : ∀ {nr io'}, fill io = some (nr, io') → ch.live io'.dev → Bounded io'.ib →
        Spoilt ch io io' ∧ Bounded io'.ib ∧ io'.ib.isarmor ≠ .unchecked := by
      intro nr io' h hl' hb'
      have hs := fill_spoilt h hl'
      exact ⟨hs, hb', by rw [hs.refilled.isarmor]; exact hun⟩
    rcases fill_coming hl hfd hb hun hp with
      ⟨io', h, hlost, hb'⟩ | ⟨hok, hlen, io', h, hl', hb'⟩ |
      ⟨hok, k, io', h, hu, hre, hb', hp', hz, hk, hkp, hw⟩
    · exact .inl ⟨io', h, hlost, hspoilt h hlost.live hb'⟩
    · exact .inr (.inl ⟨hok, hlen, io', h, hspoilt h hl' hb'⟩)
    · exact .inr (.inr ⟨hok, k, io', h, hu, hre,
        ⟨hb', by rw [hre.isarmor]; exact hun, hp'⟩, hz, hk, hkp, hw⟩)

/-! ## Between two calls -/

/-- Nothing has been read. -/
structure Fresh (ch : Chan δ) (io : Io δ) : Prop where
  live : ch.live io.dev
  fd : io.ib.fd = ch.fi
  isarmor : io.ib.isarmor = .unchecked
  cur : io.ib.cur = 0
  size : io.ib.size = 0
  eof : io.ib.eof = false
  acur : io.ib.acur = 0
  asize : io.ib.asize = 0
  aendpos : io.ib.aendpos = 0

/-- The states between two calls, with what lies in front of the reader. -/
inductive Between (ch : Chan δ) (io : Io δ) : List UInt8 → Bool → Prop
  | fresh : Fresh ch io →
      Between ch io (decoded (ch.unread io.dev)).1 (decoded (ch.unread io.dev)).2
  | opened {rest : List UInt8} {ok : Bool} : (anyFlow ch).Reads io rest ok → Between ch io rest ok

/-- The bounds of the two buffers. -/
structure InBounds (ib : Ibuf) : Prop where
  cur : ib.cur ≤ ib.size
  size : ib.size ≤ IOBUFSIZE
  acur : ib.acur ≤ ib.asize
  asize : ib.asize ≤ IOABUFREADSIZE

variable {io : Io δ} {rest : List UInt8} {ok : Bool}

theorem Between.inBounds (h : Between ch io rest ok) : InBounds io.ib := by
  cases h with
  | fresh h =>
    refine ⟨Nat.le_of_eq (h.cur.trans h.size.symm), ?_, Nat.le_of_eq (h.acur.trans h.asize.symm),
      ?_⟩
    · rw [h.size]
      exact Nat.zero_le _
    · rw [h.asize]
      exact Nat.zero_le _
  | opened h =>
    obtain ⟨p, ⟨hb, -, -⟩, -, -⟩ := h.bytes
    exact ⟨h.cur, h.size, hb.acur, hb.asize⟩

theorem Between.ahead (h : Between ch io rest ok) :
    io.ib.ahead (ch.unread io.dev) = (rest, ok) := by
  cases h with
  | fresh h =>
    unfold Ibuf.ahead Ibuf.coming
    rw [h.isarmor, h.cur, h.size, Bytes.window_self]
    rfl
  | opened h =>
    obtain ⟨p, ⟨-, -, hp⟩, hrest, -⟩ := h.bytes
    unfold Ibuf.ahead
    rw [hp, hrest]

/-- Behind an error the reader goes on from where the error left it. -/
theorem Flow.Failed.between {io' : Io δ} (h : (anyFlow ch).Failed io io' ok)
    (hfd : io.ib.fd = ch.fi) :
    Between ch io' (io'.ib.coming (ch.unread io'.dev)).1 (io'.ib.coming (ch.unread io'.dev)).2 := by
  obtain ⟨hcur, hsize, heof⟩ := h.empty
  refine .opened ⟨h.live, h.fd.trans hfd, by omega, by omega, _, ⟨h.spoilt.1, h.spoilt.2, rfl⟩, ?_,
    fun he => ?_⟩
  · rw [hcur, hsize, Bytes.window_self]
    rfl
  · rw [heof] at he
    cases he

/-- The state behind a probe that failed. -/
theorem probe_false {io' : Io δ} (h : probe io = some (false, io')) :
    io.ib.isarmor = .unchecked ∧
      ∃ buf dev, io' = { io with ib := { io.ib with buf, isarmor := .failed }, dev } := by
  unfold probe at h
  split at h
  · rename_i hun
    obtain ⟨⟨a, io₁⟩, harm, hx⟩ := Option.bind_eq_some_iff.mp h
    obtain ⟨ha, rfl⟩ := Prod.mk.inj (Option.some.inj hx)
    unfold Agecrypt.isarmor at harm
    obtain ⟨⟨⟨bs, fin⟩, dev⟩, -, harm⟩ := Option.bind_eq_some_iff.mp harm
    obtain ⟨buf, -, harm⟩ := Option.bind_eq_some_iff.mp harm
    simp only at harm
    split at harm
    · obtain ⟨rfl, rfl⟩ := Prod.mk.inj (Option.some.inj harm)
      exact ⟨hun, buf, dev, rfl⟩
    split at harm
    · obtain ⟨rfl, -⟩ := Prod.mk.inj (Option.some.inj harm)
      simp at ha
    split at harm
    · obtain ⟨rfl, -⟩ := Prod.mk.inj (Option.some.inj harm)
      simp at ha
    · obtain ⟨rfl, -⟩ := Prod.mk.inj (Option.some.inj harm)
      simp at ha
  · cases h

/-- The first statement of `bread` and `bpeek`. -/
theorem Between.probe (h : Between ch io rest ok) :
    (∃ io', Agecrypt.probe io = some (false, io') ∧ ch.ReadLost io.dev io'.dev ∧
      Between ch io' (io'.ib.coming (ch.unread io'.dev)).1
        (io'.ib.coming (ch.unread io'.dev)).2) ∨
    ∃ io', Agecrypt.probe io = some (true, io') ∧ Unharmed ch io io' ∧
      (anyFlow ch).Reads io' rest ok ∧
      (ok = false → (io'.ib.cur = io'.ib.size ↔ io.ib.cur = io.ib.size)) := by
  have hopened : ∀ {io : Io δ} {rest ok}, (anyFlow ch).Reads io rest ok →
      Agecrypt.probe io = some (true, io) := by
    intro io rest ok h
    obtain ⟨p, ⟨-, hun, -⟩, -, -⟩ := h.bytes
    rw [Agecrypt.probe, if_neg hun]
  cases h with
  | opened h => exact .inr ⟨io, hopened h, .refl h.live, h, fun _ => Iff.rfl⟩
  | fresh h =>
  have hb : Bounded io.ib := by
    refine ⟨Nat.le_of_eq (h.acur.trans h.asize.symm), ?_, ?_⟩
    · rw [h.asize]
      exact Nat.zero_le _
    · rw [h.aendpos]
      exact Nat.zero_le _
  have hlost : ∀ {io'}, Agecrypt.probe io = some (false, io') → ch.ReadLost io.dev io'.dev →
      Between ch io' (io'.ib.coming (ch.unread io'.dev)).1
        (io'.ib.coming (ch.unread io'.dev)).2 := by
    intro io' hp hl
    obtain ⟨-, buf, dev, rfl⟩ := probe_false hp
    have hfail : (anyFlow ch).Failed io
        { io with ib := { io.ib with buf, isarmor := .failed }, dev } false :=
      ⟨hl.live, rfl, ⟨h.cur, h.size, h.eof⟩, ⟨⟨hb.acur, hb.asize, hb.aendpos⟩, by simp⟩, .inr rfl⟩
    exact hfail.between h.fd
  unfold decoded
  by_cases harm : armorfirst.isPrefixOf (ch.unread io.dev) = true
  · rw [if_pos harm]
    obtain ⟨text, htext⟩ := List.isPrefixOf_iff_prefix.mp harm
    rcases probe_armor h.live h.fd h.isarmor htext.symm with
      ⟨io', hp, hl⟩ | ⟨buf, dev, hp, hk, -, hu⟩
    · exact .inl ⟨io', hp, hl, hlost hp hl⟩
    rw [← htext, List.drop_left]
    refine .inr ⟨_, hp, ⟨hk.live, hk.steady, hk.fails, rfl⟩, ⟨hk.live, h.fd, Nat.le_of_eq h.cur,
      Nat.zero_le _, (unarmor text).1, ⟨⟨hb.acur, hb.asize, hb.aendpos⟩, by simp, ?_⟩, ?_,
      fun he => ?_⟩, fun _ => ⟨fun _ => h.cur.trans h.size.symm, fun _ => h.cur⟩⟩
    · show Ibuf.coming _ (ch.unread dev) = _
      rw [hu]
      unfold Ibuf.coming Ibuf.undecoded
      simp only [h.aendpos, h.acur, h.asize, if_true, Bytes.window_self, List.nil_append]
    · show _ = buf.window io.ib.cur 0 ++ _
      rw [h.cur, Bytes.window_self]
      rfl
    · have heof : io.ib.eof = true := he
      rw [h.eof] at heof
      cases heof
  · rw [if_neg harm]
    have hbin : ¬ armorfirst <+: ch.unread io.dev := fun hpre =>
      harm (List.isPrefixOf_iff_prefix.mpr hpre)
    rcases probe_binary h.live h.fd h.isarmor h.eof hbin with
      ⟨io', hp, hl⟩ | ⟨buf, dev, hp, hk, -, hu, hw⟩
    · exact .inl ⟨io', hp, hl, hlost hp hl⟩
    have h35 := length_armorfirst
    have h8192 : IOBUFSIZE = 8 * 1024 := rfl
    refine .inr ⟨_, hp, ⟨hk.live, hk.steady, hk.fails, rfl⟩, ⟨hk.live, h.fd, ?_, ?_,
      ch.unread dev, ⟨⟨hb.acur, hb.asize, hb.aendpos⟩, by simp, rfl⟩, ?_, fun he => ⟨?_, rfl⟩⟩,
      fun hok => by cases hok⟩
    · show io.ib.cur ≤ _
      rw [h.cur]
      exact Nat.zero_le _
    · show ((ch.unread io.dev).take armorfirst.length).length ≤ IOBUFSIZE
      rw [List.length_take]
      omega
    · show _ = buf.window io.ib.cur _ ++ _
      rw [h.cur, hw, hu, List.take_append_drop]
    · have hlt : (ch.unread io.dev).length < armorfirst.length := by simpa using he
      rw [hu, List.drop_of_length_le (by omega)]

/-! ## The refills of a call -/

/-- The answer of the refill in `breadRefill`, if there is one. -/
def refillAnswer (io : Io δ) : Option Nr := do
  let io ← if io.ib.cur = io.ib.size then dropBuffer io else some io
  if io.ib.size = 0 ∧ io.ib.eof = false then (fill io).map Prod.fst else none

/-- The answers of the refills in the loop of `bread`. -/
def breadRefills : Nat → Nat → Io δ → List Nr
  | _, 0, _ => []
  | 0, _ + 1, _ => []
  | fuel + 1, nbytes + 1, io =>
    (refillAnswer io).toList ++
      match breadRefill io with
      | some (none, io) =>
        let rest := io.ib.size - io.ib.cur
        if rest = 0 ∧ io.ib.eof then []
        else
          breadRefills fuel (nbytes + 1 - min rest (nbytes + 1))
            { io with ib := { io.ib with cur := io.ib.cur + min rest (nbytes + 1) } }
      | _ => []

/-- The answers of the refills during a call. -/
def refills : ReadCall → Io δ → List Nr
  | .bread n, io =>
    match probe io with
    | some (true, io) => breadRefills n n io
    | _ => []
  | .bpeek, io =>
    match probe io with
    | some (true, io) =>
      if (io.ib.eof ∧ io.ib.cur = io.ib.size) ∨ io.ib.cur < io.ib.size then []
      else (((dropBuffer io).bind fill).map Prod.fst).toList
    | _ => []

/-- A round of `bread` that goes on, or ends with the count so far, met no
error. -/
theorem refillAnswer_of_breadRefill {io' : Io δ} {r : Option Bool}
    (h : breadRefill io = some (r, io')) (hr : r ≠ some false) :
    refillAnswer io ≠ some .fmterr := by
  have hfetch : ∀ {io₁ : Io δ}, breadFetch io₁ = some (r, io') →
      (if io₁.ib.size = 0 ∧ io₁.ib.eof = false then (fill io₁).map Prod.fst else none) ≠
        some .fmterr := by
    intro io₁ h
    unfold breadFetch at h
    split
    · rename_i hempty
      rw [if_pos hempty] at h
      rcases hfill : fill io₁ with _ | ⟨_ | _ | _ | n, io₂⟩
      · simp
      · simp
      · rw [hfill] at h
        obtain ⟨rfl, -⟩ := Prod.mk.inj (Option.some.inj h)
        exact absurd rfl hr
      · simp
      · simp
    · simp
  unfold breadRefill at h
  unfold refillAnswer
  by_cases hcs : io.ib.cur = io.ib.size
  · rw [if_pos hcs] at h ⊢
    rcases hdrop : dropBuffer io with _ | io₁
    · simp
    · rw [hdrop] at h
      exact hfetch h
  · rw [if_neg hcs] at h ⊢
    exact hfetch h

/-- The loop of `bread` does not go on behind a format error. -/
theorem breadRefills_of_breadLoop (fuel : Nat) : ∀ (n : Nat) (acc : List UInt8) {io io' : Io δ}
    {out : List UInt8}, breadLoop fuel n acc io = some (some out, io') →
    Nr.fmterr ∉ breadRefills fuel n io := by
  induction fuel with
  | zero =>
    intro n acc io io' out _
    cases n with
    | zero => exact List.not_mem_nil
    | succ n => exact List.not_mem_nil
  | succ fuel ih =>
    intro n acc io io' out h
    cases n with
    | zero => exact List.not_mem_nil
    | succ n =>
      rw [breadLoop] at h
      obtain ⟨⟨r, io₁⟩, hrefill, h⟩ := Option.bind_eq_some_iff.mp h
      rw [breadRefills, List.mem_append]
      have hr : r ≠ some false := by
        rintro rfl
        cases h
      have hfirst := refillAnswer_of_breadRefill hrefill hr
      rintro (hmem | hmem)
      · exact hfirst (Option.mem_toList.mp hmem)
      rw [hrefill] at hmem
      rcases r with _ | _ | _
      · simp only at h hmem
        split at hmem
        · cases hmem
        · rename_i hgo
          rw [if_neg hgo] at h
          obtain ⟨bs, -, h⟩ := Option.bind_eq_some_iff.mp h
          exact ih _ _ h hmem
      · cases hmem
      · cases hmem

/-- A `bread` that met a format error reports it. -/
theorem fmterr_not_mem_refills {n : Nat} {out : List UInt8} {io' : Io δ}
    (h : bread n io = some (some out, io')) : Nr.fmterr ∉ refills (.bread n) io := by
  simp only [refills]
  unfold bread at h
  rcases hp : probe io with _ | ⟨_ | _, io₁⟩
  · exact List.not_mem_nil
  · exact List.not_mem_nil
  · rw [hp] at h
    exact breadRefills_of_breadLoop n n [] h

/-- `bpeek` takes a format error for a count. -/
theorem size_of_refills_bpeek {a : Peek} {io' : Io δ} (h : bpeek io = some (a, io'))
    (hmem : Nr.fmterr ∈ refills .bpeek io) : io'.ib.size = USIZE - 2 := by
  simp only [refills] at hmem
  unfold bpeek at h
  rcases hp : Agecrypt.probe io with _ | ⟨_ | _, io₁⟩
  · rw [hp] at hmem
    cases hmem
  · rw [hp] at hmem
    cases hmem
  rw [hp] at h hmem
  simp only [Option.bind_eq_bind, Option.bind_some, not_true_eq_false, if_false] at h hmem
  split at hmem
  · cases hmem
  rename_i hgo
  rw [if_neg (fun hd => hgo (.inl hd)), if_neg (fun hlt => hgo (.inr hlt))] at h
  obtain ⟨io₂, hdrop, h⟩ := Option.bind_eq_some_iff.mp h
  rw [hdrop, Option.bind_some] at hmem
  obtain ⟨⟨nr, io₃⟩, hfill, rfl⟩ := Option.map_eq_some_iff.mp (Option.mem_toList.mp hmem)
  rw [hfill, Option.bind_some] at h
  obtain ⟨bs, -, h⟩ := Option.bind_eq_some_iff.mp h
  obtain ⟨-, rfl⟩ := Prod.mk.inj (Option.some.inj h)
  rfl

/-! ## One call -/

/-- The number of bytes that a call wants. -/
def ReadCall.wants : ReadCall → Nat
  | .bread n => n
  | .bpeek => 1

/-- A peek at an empty buffer is not in front of text that will be refused
before it fills the buffer. -/
def ReadCall.Clear (ch : Chan δ) (c : ReadCall) (io : Io δ) : Prop :=
  c = .bpeek → io.ib.cur = io.ib.size → (io.ib.ahead (ch.unread io.dev)).2 = false →
    IOBUFSIZE ≤ (io.ib.ahead (ch.unread io.dev)).1.length

/-- What is asked of a call: the buffers stay within their bounds; without
an error it delivers the next bytes, and fewer than it wants only at an end
that is accepted; a failed read and a format error are reported, and nothing
else is. -/
structure Exact (ch : Chan δ) (c : ReadCall) (io : Io δ) (a : ReadAns) (io' : Io δ) : Prop where
  bounds : InBounds io'.ib
  delivers : a.Ok →
    answers [c] (io.ib.ahead (ch.unread io.dev)).1 =
        ([a], (io'.ib.ahead (ch.unread io'.dev)).1) ∧
      (io'.ib.ahead (ch.unread io'.dev)).2 = (io.ib.ahead (ch.unread io.dev)).2 ∧
      ((io.ib.ahead (ch.unread io.dev)).1.length < c.wants →
        (io.ib.ahead (ch.unread io.dev)).2 = true)
  reports : Nr.fmterr ∈ refills c io ∨ ch.fails io.dev < ch.fails io'.dev → ¬ a.Ok
  due : ¬ a.Ok → ch.fails io.dev < ch.fails io'.dev ∨ (io.ib.ahead (ch.unread io.dev)).2 = false

/-- The outcomes of a call: an error is reported; or the next bytes are
delivered; or a peek that is not clear has broken the buffer. -/
theorem Between.readCall (h : Between ch io rest ok) (c : ReadCall) :
    (∃ a io', Agecrypt.readCall c io = some (a, io') ∧ ¬ a.Ok ∧
      (∃ rest' ok', Between ch io' rest' ok') ∧
      (ch.ReadLost io.dev io'.dev ∨ (ok = false ∧ c ≠ .bpeek))) ∨
    (∃ a io', Agecrypt.readCall c io = some (a, io') ∧ ¬ c.Clear ch io ∧
      io'.ib.size = USIZE - 2) ∨
    ∃ a io', Agecrypt.readCall c io = some (a, io') ∧ a.Ok ∧
      answers [c] rest = ([a], (answers [c] rest).2) ∧ Between ch io' (answers [c] rest).2 ok ∧
      Unharmed ch io io' ∧ (rest.length < c.wants → ok = true) ∧ c.Clear ch io := by
  have hahead := h.ahead
  have hfd : io.ib.fd = ch.fi := by
    cases h with
    | fresh h => exact h.fd
    | opened h => exact h.fd
  rcases h.probe with ⟨io₁, hp, hlost, hb⟩ | ⟨io₁, hp, hun, h₁, hcs⟩
  · cases c with
    | bread n =>
      refine .inl ⟨.bread none, io₁, readCall_bread ?_, fun hok => hok.1 rfl,
        ⟨_, _, hb⟩, .inl hlost⟩
      unfold bread
      rw [hp]
      rfl
    | bpeek =>
      refine .inl ⟨.bpeek .err, io₁, readCall_bpeek ?_, fun hok => hok.2 rfl,
        ⟨_, _, hb⟩, .inl hlost⟩
      unfold bpeek
      rw [hp]
      rfl
  have hfailed : ∀ {io₂}, (anyFlow ch).Failed io₁ io₂ ok → ∃ rest' ok', Between ch io₂ rest' ok' :=
    fun hf => ⟨_, _, hf.between (hun.fd.trans hfd)⟩
  cases c with
  | bread n =>
    have hbread : bread n io = breadLoop n n [] io₁ := by
      unfold bread
      rw [hp]
      rfl
    rcases h₁.breadLoop n n [] (Nat.le_refl n) with
      ⟨io₂, hl, hf⟩ | ⟨io₂, hl, hun₂, h₂, hshort⟩
    · exact .inl ⟨.bread none, io₂, readCall_bread (hbread.trans hl), fun hok => hok.1 rfl,
        hfailed hf, (hun.failed hf).cause.imp_right fun hok => ⟨hok, fun hc => by cases hc⟩⟩
    · exact .inr (.inr ⟨.bread (some (rest.take n)), io₂, readCall_bread (hbread.trans hl),
        ⟨by simp, by simp⟩, rfl, .opened h₂, hun.trans hun₂, hshort,
        fun hc => ReadCall.noConfusion hc⟩)
  | bpeek =>
    have hp₁ : Agecrypt.probe io₁ = some (true, io₁) := by
      obtain ⟨p, ⟨-, hne, -⟩, -, -⟩ := h₁.bytes
      rw [Agecrypt.probe, if_neg hne]
    have hbpeek : bpeek io = bpeek io₁ := by
      unfold bpeek
      rw [hp, hp₁]
    rcases h₁.peek hp₁ with
      ⟨io₂, hb, hf, hlost⟩ | ⟨a, io₂, hb, hok, hcs₁, hlen, hsize⟩ | ⟨io₂, hb, hun₂, h₂, hclear⟩
    · exact .inl ⟨.bpeek .err, io₂, readCall_bpeek (hbpeek.trans hb), fun hok => hok.2 rfl,
        hfailed hf, .inl (hun.lost hlost)⟩
    · refine .inr (.inl ⟨.bpeek a, io₂, readCall_bpeek (hbpeek.trans hb), fun hc => ?_, hsize⟩)
      have := hc rfl ((hcs hok).mp hcs₁) (by rw [hahead]; exact hok)
      rw [hahead] at this
      exact absurd this (Nat.not_le_of_lt hlen)
    · refine .inr (.inr ⟨.bpeek (rest.head?.elim .eof .char), io₂,
        readCall_bpeek (hbpeek.trans hb), ⟨by simp, ?_⟩, rfl, .opened h₂, hun.trans hun₂, ?_, ?_⟩)
      · cases rest.head? <;> simp
      · intro hlt
        obtain ⟨p, -, hrest, hend⟩ := h₁.bytes
        have hcur := h₁.cur
        have hnil : rest = [] := List.length_eq_zero_iff.mp (Nat.lt_one_iff.mp hlt)
        have hwin := h₁.size
        have hempty : io₁.ib.cur = io₁.ib.size := by
          have hlen : (io₁.ib.buf.window io₁.ib.cur io₁.ib.size).length = 0 := by
            rw [hnil] at hrest
            rw [(List.append_eq_nil_iff.mp hrest.symm).1, List.length_nil]
          rw [Bytes.length_window _ hwin] at hlen
          omega
        refine (hclear hempty).resolve_right fun hle => ?_
        rw [hnil, List.length_nil] at hle
        exact absurd hle (by decide)
      · intro _ hcs₀ hrefused
        rw [hahead] at hrefused ⊢
        have hok : ok = false := hrefused
        refine (hclear ((hcs hok).mpr hcs₀)).resolve_left ?_
        rw [hok]
        exact Bool.false_ne_true

/-- A clear call is exact.  When no read fails, only a clear call is. -/
theorem Between.exact (h : Between ch io rest ok) (c : ReadCall) :
    ∃ a io', Agecrypt.readCall c io = some (a, io') ∧ (c.Clear ch io → Exact ch c io a io') ∧
      (ch.steady io.dev → Exact ch c io a io' → c.Clear ch io) := by
  have hahead := h.ahead
  rcases h.readCall c with
    ⟨a, io', hc, herr, ⟨rest', ok', h'⟩, hcause⟩ | ⟨a, io', hc, hno, hsize⟩ |
    ⟨a, io', hc, hok, ha, h', hun, hshort, hclear⟩
  · refine ⟨a, io', hc, fun _ => ⟨h'.inBounds, fun hok => absurd hok herr, fun _ => herr,
      fun _ => ?_⟩, fun hst _ => ?_⟩
    · rw [hahead]
      exact hcause.imp (fun hlost => hlost.fails) fun hrefused => hrefused.1
    · rcases hcause with hlost | ⟨-, hne⟩
      · exact absurd hst hlost.unsteady
      · exact fun hc => absurd hc hne
  · refine ⟨a, io', hc, fun hclear => absurd hclear hno, fun _ hex => ?_⟩
    have hle := hex.bounds.size
    rw [hsize] at hle
    exact absurd hle (by decide)
  · refine ⟨a, io', hc, fun _ => ⟨h'.inBounds, fun _ => ?_, ?_, fun herr => absurd hok herr⟩,
      fun _ _ => hclear⟩
    · rw [hahead, h'.ahead]
      exact ⟨ha, rfl, hshort⟩
    · rintro (hmem | hlt) _
      · cases c with
        | bread n =>
          obtain ⟨⟨r, io₂⟩, hb, hx⟩ := Option.map_eq_some_iff.mp hc
          obtain ⟨rfl, rfl⟩ := Prod.mk.inj hx
          cases r with
          | none => exact hok.1 rfl
          | some out => exact fmterr_not_mem_refills hb hmem
        | bpeek =>
          obtain ⟨⟨r, io₂⟩, hb, hx⟩ := Option.map_eq_some_iff.mp hc
          obtain ⟨-, rfl⟩ := Prod.mk.inj hx
          have hle := h'.inBounds.size
          rw [size_of_refills_bpeek hb hmem] at hle
          exact absurd hle (by decide)
      · rw [hun.fails] at hlt
        exact absurd hlt (Nat.lt_irrefl _)

/-! ## Every run -/

section

variable (fi fo : Int)

/-- The states after calls that were all clear, with their answers. -/
inductive Reached (start : Io Dev) : List ReadAns → Io Dev → Prop
  | start : Reached start [] start
  | call {as : List ReadAns} {io io' : Io Dev} {c : ReadCall} {a : ReadAns} : Reached start as io →
      c.Clear (devChan fi fo False) io → readCall c io = some (a, io') →
      Reached start (as ++ [a]) io'

variable {fi fo}

/-- What a call takes is what it takes away. -/
theorem taken_answers {c : ReadCall} {a : ReadAns} {rest : List UInt8}
    (h : answers [c] rest = ([a], (answers [c] rest).2)) :
    rest = a.taken ++ (answers [c] rest).2 := by
  cases c with
  | bread n =>
    obtain ⟨rfl, -⟩ := List.cons.inj (congrArg Prod.fst h)
    exact (List.take_append_drop n rest).symm
  | bpeek =>
    obtain ⟨rfl, -⟩ := List.cons.inj (congrArg Prod.fst h)
    rfl

theorem Reached.between {start io : Io Dev} {as : List ReadAns} (h : Reached fi fo start as io)
    (hstart : Fresh (devChan fi fo False) start) :
    ∃ rest ok, Between (devChan fi fo False) io rest ok ∧
      ((∀ a ∈ as, a.Ok) → (decoded start.dev.inp).1 = taken as ++ rest) := by
  induction h with
  | start => exact ⟨_, _, .fresh hstart, fun _ => rfl⟩
  | call hprev hclear hc ih =>
    obtain ⟨rest, ok, hb, hpos⟩ := ih
    have hlast : ∀ {as : List ReadAns} {a : ReadAns}, (∀ x ∈ as ++ [a], x.Ok) →
        (∀ x ∈ as, x.Ok) ∧ a.Ok := fun hall =>
      ⟨fun x hx => hall x (List.mem_append_left _ hx),
        hall _ (List.mem_append_right _ (List.mem_singleton_self _))⟩
    rcases hb.readCall _ with
      ⟨a', io₁, hc', herr, ⟨rest', ok', hb'⟩, -⟩ | ⟨a', io₁, -, hno, -⟩ |
      ⟨a', io₁, hc', -, ha, hb', -, -, -⟩
    · obtain ⟨rfl, rfl⟩ := Prod.mk.inj (Option.some.inj (hc.symm.trans hc'))
      exact ⟨rest', ok', hb', fun hall => absurd (hlast hall).2 herr⟩
    · exact absurd hclear hno
    · obtain ⟨rfl, rfl⟩ := Prod.mk.inj (Option.some.inj (hc.symm.trans hc'))
      refine ⟨_, ok, hb', fun hall => ?_⟩
      rw [hpos (hlast hall).1, taken, taken, List.map_append, List.flatten_append,
        List.append_assoc]
      congr 1
      simpa using taken_answers ha

/-- From `ibinit` on, whatever the input, the schedule, the sizes and the
errors met: the buffers stay within their bounds; as long as no error was
reported, what was taken and what lies in front of the reader make up the
decoded input; and the next call is exact if it is clear.  On a descriptor
whose reads do not fail, only then. -/
theorem reads_exact_iff (m : Memory) (recording isarmor : Bool) (dev : Dev) {as : List ReadAns}
    {io : Io Dev} (h : Reached fi fo (m.start fi fo recording isarmor dev) as io) (c : ReadCall) :
    InBounds io.ib ∧
      ((∀ a ∈ as, a.Ok) → (decoded dev.inp).1 = taken as ++ (io.ib.ahead io.dev.inp).1) ∧
      ∃ a io', readCall c io = some (a, io') ∧
        (c.Clear (devChan fi fo False) io → Exact (devChan fi fo False) c io a io') ∧
        (io.dev.Reads → Exact (devChan fi fo False) c io a io' →
          c.Clear (devChan fi fo False) io) := by
  have hstart : Fresh (devChan fi fo False) (m.start fi fo recording isarmor dev) :=
    ⟨trivial, rfl, rfl, rfl, rfl, rfl, rfl, rfl, rfl⟩
  obtain ⟨rest, ok, hb, hpos⟩ := h.between hstart
  obtain ⟨a, io', hc, hexact, hclear⟩ := hb.exact c
  refine ⟨hb.inBounds, fun hok => ?_, a, io', hc, hexact, fun hreads => ?_⟩
  · rw [show io.ib.ahead io.dev.inp = (rest, ok) from hb.ahead]
    exact hpos hok
  · exact hclear ⟨hreads, fun hf => hf.elim⟩

/-- One byte of two was taken. -/
theorem reads_exact_iff_two :
    ∃ io, Reached 3 4 (Memory.zero.start 3 4 true false (Dev.steady [1, 2] 0))
        [.bread (some [1])] io ∧ InBounds io.ib ∧
      (decoded [1, 2]).1 = [1] ++ (io.ib.ahead io.dev.inp).1 := by
  have heval : (readCall (.bread 1) (Memory.zero.start 3 4 true false (Dev.steady [1, 2] 0))).map
      Prod.fst = some (.bread (some [1])) := by decide +kernel
  obtain ⟨⟨a, io⟩, hc, ha⟩ := Option.map_eq_some_iff.mp heval
  have ha : a = .bread (some [1]) := ha
  rw [ha] at hc
  have hrun : Reached 3 4 (Memory.zero.start 3 4 true false (Dev.steady [1, 2] 0))
      [.bread (some [1])] io := .call .start (fun he => ReadCall.noConfusion he) hc
  obtain ⟨hbounds, htaken, -⟩ := reads_exact_iff Memory.zero true false
    (Dev.steady [1, 2] 0) hrun .bpeek
  refine ⟨io, hrun, hbounds, htaken fun x hx => ?_⟩
  rw [List.mem_singleton.mp hx]
  decide

end

end Agecrypt
