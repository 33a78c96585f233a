import Agecrypt.Agec.Armor
import Agecrypt.Agec.Channel
import Agecrypt.Agec.Machine
import Agecrypt.Agec.Reader

/-!
# Armored input does not depend on the schedule

An armored input is read with `readall`, so that every refill starts at the
end of a block.  The code over any descriptors therefore does exactly what
it does over the ideal system `Tape`, or a read has failed.  `erase` is the
state over `Tape` that belongs to a state over any descriptors, and
`Shadows` the relation between the two results of one function.
-/

namespace Agecrypt

variable {δ : Type} [Descr δ] {ch : Chan δ}

/-! ## The ideal system -/

/-- `readall` on the ideal system. -/
theorem tape_readall (fd : Int) (n : Nat) (t : Tape) :
    readall fd n t =
      some ((t.inp.take n, readEnd n t.inp), { t with inp := t.inp.drop n }) := by
  have hend : ∀ fuel m acc (t : Tape), t.inp.take (m + 1) = [] →
      readallLoop fd (fuel + 1) (m + 1) acc t =
        some ((acc, .eof), { t with inp := t.inp.drop (m + 1) }) := by
    intro fuel m acc t h
    rw [readallLoop]
    simp [Descr.ageread, h]
  have hstep : ∀ fuel m acc (t : Tape) b bs, t.inp.take (m + 1) = b :: bs →
      readallLoop fd (fuel + 1) (m + 1) acc t =
        readallLoop fd fuel (m + 1 - (b :: bs).length) (acc ++ b :: bs)
          { t with inp := t.inp.drop (m + 1) } := by
    intro fuel m acc t b bs h
    rw [readallLoop]
    simp [Descr.ageread, h]
  rcases n with _ | n
  · simp [readall, readallLoop, readEnd]
  rw [readall]
  rcases h : t.inp.take (n + 1) with _ | ⟨b, bs⟩
  · have hnil : t.inp = [] := by
      rcases hi : t.inp with _ | ⟨c, cs⟩
      · rfl
      · rw [hi] at h
        simp at h
    rw [hend _ _ _ _ h]
    simp [hnil, readEnd]
  · have hlen : (b :: bs).length = min (n + 1) t.inp.length := by
      rw [← h, List.length_take]
    rw [hstep _ _ _ _ _ _ h]
    by_cases hfull : n + 1 ≤ t.inp.length
    · have hz : n + 1 - (b :: bs).length = 0 := by omega
      rw [hz]
      rcases n with _ | n <;> simp [readallLoop, readEnd, hfull]
    · obtain ⟨m, hm⟩ : ∃ m, n + 1 - (b :: bs).length = m + 1 :=
        ⟨n - (b :: bs).length, by omega⟩
      simp only [List.length_cons] at hlen
      obtain ⟨k, rfl⟩ : ∃ k, n = k + 1 := ⟨n - 1, by omega⟩
      have hd : t.inp.drop (k + 1 + 1) = [] := List.drop_of_length_le (by omega)
      rw [hm, hend _ _ _ _ (by simp [hd])]
      simp [hd, readEnd, hfull]

variable (ch) in
/-- The state over the ideal system that belongs to a state. -/
def erase (io : Io δ) : Io Tape :=
  ⟨{ io.ib with fd := 0 }, ⟨0, 0, false, Bytes.zero _⟩, io.ebuf, .readBuffer,
    ⟨ch.unread io.dev, Descr.strerror io.dev⟩⟩

/-- No call failed, and only the input buffer, the input and the error
buffer changed. -/
structure Quiet (ch : Chan δ) (io io' : Io δ) : Prop where
  kept : ch.Calm io.dev io'.dev
  accepted : ch.accepted io'.dev = ch.accepted io.dev
  fd : io'.ib.fd = io.ib.fd
  ob : io'.ob = io.ob
  data : io'.data = io.data

namespace Quiet

theorem refl {io : Io δ} (h : ch.Sound io.dev) : Quiet ch io io :=
  ⟨.refl h, rfl, rfl, rfl, rfl⟩

theorem trans {io₁ io₂ io₃ : Io δ} (h : Quiet ch io₁ io₂) (h' : Quiet ch io₂ io₃) :
    Quiet ch io₁ io₃ :=
  ⟨h.kept.trans h'.kept, h'.accepted.trans h.accepted, h'.fd.trans h.fd, h'.ob.trans h.ob,
    h'.data.trans h.data⟩

end Quiet

/-- The bounds of the buffers. -/
structure Bounded (ib : Ibuf) : Prop where
  acur : ib.acur ≤ ib.asize
  asize : ib.asize ≤ IOABUFREADSIZE
  aendpos : ib.aendpos ≤ armorlast.length

/-- An armored input behind its header line. -/
structure Opened (ib : Ibuf) : Prop extends Bounded ib where
  armor : ib.isarmor = .yes

/-- The result `x` of a function on `io` is that on the ideal system, or a
read failed and the result is `bad`. -/
def Shadows {α : Type} (ch : Chan δ) (bad : α) (io : Io δ) (x : Option (α × Io δ))
    (y : Option (α × Io Tape)) : Prop :=
  (∃ io', x = some (bad, io') ∧ ch.ReadLost io.dev io'.dev ∧ Bounded io'.ib) ∨
  (y = x.map (fun p => (p.1, erase ch p.2)) ∧
    ∀ r io', x = some (r, io') → Quiet ch io io' ∧ Opened io'.ib)

namespace Shadows

variable {α β : Type} {bad : α} {io : Io δ}

theorem none : Shadows ch bad io none none := .inr ⟨rfl, by simp⟩

theorem some {r : α} {io' : Io δ} (hq : Quiet ch io io') (hb : Opened io'.ib) :
    Shadows ch bad io (some (r, io')) (some (r, erase ch io')) :=
  .inr ⟨rfl, by
    rintro r' io'' h
    obtain ⟨rfl, rfl⟩ : r = r' ∧ io' = io'' := by simpa using h
    exact ⟨hq, hb⟩⟩

theorem lost {io' : Io δ} {y : Option (α × Io Tape)} (hl : ch.ReadLost io.dev io'.dev)
    (hb : Bounded io'.ib) : Shadows ch bad io (Option.some (bad, io')) y :=
  .inl ⟨io', rfl, hl, hb⟩

/-- After steps in which no call failed. -/
theorem after {io₁ : Io δ} {x : Option (α × Io δ)} {y : Option (α × Io Tape)}
    (hq : Quiet ch io io₁) (h : Shadows ch bad io₁ x y) : Shadows ch bad io x y := by
  rcases h with ⟨io', hx, hl, hb⟩ | ⟨hy, hx⟩
  · exact .inl ⟨io', hx, hq.kept.lost hl, hb⟩
  · exact .inr ⟨hy, fun r io' h => ⟨hq.trans (hx r io' h).1, (hx r io' h).2⟩⟩

/-- In sequence; a failed read ends both. -/
theorem bind {bad' : β} {x : Option (α × Io δ)} {y : Option (α × Io Tape)}
    {f : α × Io δ → Option (β × Io δ)} {g : α × Io Tape → Option (β × Io Tape)}
    (h : Shadows ch bad io x y) (hbad : ∀ io', f (bad, io') = Option.some (bad', io'))
    (hf : ∀ r io', x = Option.some (r, io') → Quiet ch io io' → Opened io'.ib →
      Shadows ch bad' io' (f (r, io')) (g (r, erase ch io'))) :
    Shadows ch bad' io (x.bind f) (y.bind g) := by
  rcases h with ⟨io', rfl, hl, hb⟩ | ⟨rfl, hx⟩
  · exact .inl ⟨io', hbad io', hl, hb⟩
  rcases x with _ | ⟨r, io'⟩
  · exact .none
  · obtain ⟨hq, hb⟩ := hx r io' rfl
    exact .after hq (hf r io' rfl hq hb)

end Shadows

/-! ## The functions of the armored input -/

/-- Reading one byte. -/
private theorem read_one {io : Io δ} (hl : ch.Sound io.dev) (hfd : io.ib.fd = ch.fi) :
    (∃ d', Descr.ageread io.ib.fd 1 io.dev = (none, d') ∧ ch.ReadLost io.dev d') ∨
    ∃ d', Descr.ageread io.ib.fd 1 io.dev = (some ((ch.unread io.dev).take 1), d') ∧
      Quiet ch io { io with dev := d' } ∧ ch.unread d' = (ch.unread io.dev).drop 1 := by
  rw [hfd]
  rcases ch.read_cases hl.live (n := 1) (by omega) with
    ⟨d', h, hlost, -, -⟩ | ⟨bs, d', h, hk, hb, hu, hnil, ha⟩
  · exact .inl ⟨d', h, hlost⟩
  · have hbs : bs = (ch.unread io.dev).take 1 ∧ ch.unread d' = (ch.unread io.dev).drop 1 := by
      rcases bs with _ | ⟨b, _ | ⟨c, cs⟩⟩
      · have hn := hnil rfl
        rw [hn] at hu
        simp at hu
        simp [hn, hu]
      · simp [hu]
      · simp at hb
    exact .inr ⟨d', by rw [h, hbs.1], ⟨hk.calm hl, ha, rfl, rfl, rfl⟩, hbs.2⟩

theorem recgrow_erase (src : List UInt8) {io : Io δ} (hl : ch.Sound io.dev) :
    erase ch (recgrow src io) = recgrow src (erase ch io) := by
  by_cases hneed : io.ib.record.buf.length + src.length > io.ib.record.capacity
  · rcases hcap : growCap (io.ib.record.buf.length + src.length) 64 io.ib.record.capacity with
      _ | ncap
    · simp [recgrow, erase, hneed, hcap]
    · rcases h : Descr.alloc ncap io.dev with ⟨b, d'⟩
      obtain ⟨hb, hu, -, -, he, -, -, -⟩ := ch.alloc_ok hl.live h
      obtain rfl := hb hl.allocates
      have ht : Descr.alloc ncap (erase ch io).dev = (true, (erase ch io).dev) := rfl
      simp [recgrow, erase, hneed, hcap, h, hu, he (.inr rfl), Descr.alloc]
  · simp [recgrow, erase, hneed]

theorem recappend_erase (src : List UInt8) {io : Io δ} (hl : ch.Sound io.dev) :
    erase ch (recappend src io) = recappend src (erase ch io) := by
  by_cases hf : io.ib.recfail.isSome = true
  · simp [recappend, erase, hf]
  by_cases hc : src.length > 0 ∧ io.ib.record.capacity = 0
  · rcases h : Descr.alloc RECINITLEN io.dev with ⟨b, d'⟩
    obtain ⟨hb, hu, -, -, he, -, hl', -, hal'⟩ := ch.alloc_ok hl.live h
    obtain rfl := hb hl.allocates
    let io₁ : Io δ := { io with
      ib := { io.ib with record := { io.ib.record with capacity := RECINITLEN } }, dev := d' }
    have hleft : recappend src io = recgrow src io₁ := by simp [recappend, hf, hc, h, io₁]
    have hright : recappend src (erase ch io) = recgrow src (erase ch io₁) := by
      simp [recappend, erase, hf, hc, Descr.alloc, io₁, hu, he (.inr rfl)]
    rw [hleft, hright, @recgrow_erase δ _ ch src io₁ ⟨hl', hal' hl.allocates⟩]
  · have hleft : recappend src io = recgrow src io := by
      rw [recappend, if_neg hf, if_neg hc]
    have hright : recappend src (erase ch io) = recgrow src (erase ch io) := by
      rw [recappend, if_neg (by exact hf), if_neg (by exact hc)]
    rw [hleft, hright, recgrow_erase src hl]

/-- The state after one byte more has been read. -/
private theorem erase_read {io : Io δ} {d' : δ} (hk : ch.Calm io.dev d')
    (hu : ch.unread d' = (ch.unread io.dev).drop 1) (fd : Int) :
    Descr.ageread fd 1 (erase ch io).dev =
      (some ((ch.unread io.dev).take 1), (erase ch { io with dev := d' }).dev) := by
  simp only [erase, Descr.ageread, hu, hk.errno]

theorem areadBlock_shadows (raw : List UInt8) {io : Io δ} (hl : ch.Sound io.dev)
    (hfd : io.ib.fd = ch.fi) (hb : Opened io.ib) (ha : io.ib.acur = 0) :
    Shadows ch (some .ioerr) io (areadBlock raw io) (areadBlock raw (erase ch io)) := by
  have hle := endcheck_le (fun _ => 0) raw hb.aendpos
  have hpart := endcheck_partial (fun _ => 0) raw hb.aendpos
  unfold areadBlock
  rw [show (erase ch io).ib.aendpos = io.ib.aendpos from rfl]
  generalize endcheck (fun _ => 0) raw io.ib.aendpos = e at hle hpart ⊢
  rcases e with ⟨fin, endpos⟩
  simp only at hle hpart ⊢
  by_cases hfin : fin = -1
  · rw [if_pos hfin, if_pos hfin]
    exact .some ⟨.refl hl, rfl, rfl, rfl, rfl⟩ ⟨⟨hb.acur, hb.asize, hle⟩, hb.armor⟩
  rw [if_neg hfin, if_neg hfin]
  rcases base64decode (raw.take (raw.length - endpos)) true with _ | out
  · exact .some ⟨.refl hl, rfl, rfl, rfl, rfl⟩ ⟨⟨hb.acur, hb.asize, hle⟩, hb.armor⟩
  simp only [show (erase ch io).ib.abuf = io.ib.abuf from rfl]
  rcases hst : io.ib.abuf.store 0 out with _ | abuf
  · exact .none
  simp only [Option.bind_eq_bind, Option.bind_some]
  rw [if_neg hpart, if_neg hpart]
  have hout : out.length ≤ IOABUFREADSIZE := by
    have := Bytes.store_bound hst
    omega
  let io₁ : Io δ := { io with
    ib := { io.ib with abuf, aendpos := endpos, asize := out.length } }
  have hb₁ : Opened io₁.ib := ⟨⟨by simp [io₁, ha], hout, hle⟩, hb.armor⟩
  have hq₁ : Quiet ch io io₁ := ⟨.refl hl, rfl, rfl, rfl, rfl⟩
  by_cases hfin1 : fin = 1
  · rw [if_pos hfin1, if_pos hfin1]
    rcases @read_one δ _ ch io₁ hl hfd with ⟨d', h, hlost⟩ | ⟨d', h, hq, hu⟩
    · rw [show Descr.ageread io.ib.fd 1 io.dev = (none, d') from h]
      exact .lost hlost hb₁.toBounded
    · rw [show Descr.ageread io.ib.fd 1 io.dev = (some ((ch.unread io.dev).take 1), d') from h,
        @erase_read δ _ ch io _ hq.kept hu]
      rcases (ch.unread io.dev).take 1 with _ | ⟨c, cs⟩
      · exact .some (hq₁.trans hq) hb₁
      · exact .some (hq₁.trans hq) hb₁
  · rw [if_neg hfin1, if_neg hfin1]
    exact .some hq₁ hb₁

private theorem erase_readall {io : Io δ} {d' : δ} {n : Nat} (hk : ch.Calm io.dev d')
    (hu : ch.unread d' = (ch.unread io.dev).drop n) (fd : Int) :
    readall fd n (erase ch io).dev =
      some (((ch.unread io.dev).take n, readEnd n (ch.unread io.dev)),
        (erase ch { io with dev := d' }).dev) := by
  rw [tape_readall]
  simp only [erase, hu, hk.errno]

theorem areadRefill_shadows (off : Nat) {io : Io δ} (hl : ch.Sound io.dev)
    (hfd : io.ib.fd = ch.fi) (hb : Opened io.ib) (ha : io.ib.acur = 0) :
    Shadows ch (some .ioerr) io (areadRefill off io) (areadRefill off (erase ch io)) := by
  unfold areadRefill
  rw [hfd]
  obtain ⟨bs, fin, d', h, hacc, hcases⟩ := ch.readall_spec hl.live IOABUFREADSIZE
  rw [h]
  rcases hcases with ⟨rfl, hlost, -⟩ | ⟨hk, rfl, hu, rfl⟩
  · exact .lost hlost hb.toBounded
  have hfin : readEnd IOABUFREADSIZE (ch.unread io.dev) ≠ .fail := by
    unfold readEnd
    split <;> simp
  have hq : Quiet ch io { io with dev := d' } := ⟨hk.calm hl, hacc, rfl, rfl, rfl⟩
  rw [erase_readall (hk.calm hl) hu]
  generalize (ch.unread io.dev).take IOABUFREADSIZE = bs
  simp only
  rw [if_neg hfin, if_neg hfin]
  by_cases hlen : bs.length = 0
  · rw [if_pos hlen, if_pos hlen]
    by_cases hend : io.ib.aendpos = 0
    · rw [if_pos hend, if_pos (by exact hend)]
      exact .some hq hb
    · rw [if_neg hend, if_neg (by exact hend)]
      exact .some hq hb
  · rw [if_neg hlen, if_neg hlen]
    exact .after hq (@areadBlock_shadows δ _ ch bs { io with dev := d' } hq.kept.sound hfd hb ha)

theorem areadFetch_shadows (off : Nat) {io : Io δ} (hl : ch.Sound io.dev)
    (hfd : io.ib.fd = ch.fi) (hb : Opened io.ib) :
    Shadows ch (some .ioerr) io (areadFetch off io) (areadFetch off (erase ch io)) := by
  have hcur := hb.acur
  simp only [areadFetch]
  by_cases hac : io.ib.acur = io.ib.asize
  · let io₁ : Io δ := { io with ib := { io.ib with acur := 0, asize := 0 } }
    have hac' : (erase ch io).ib.acur = (erase ch io).ib.asize := hac
    rw [if_pos hac, if_pos hac', if_pos rfl, if_pos rfl]
    have hq : Quiet ch io io₁ := ⟨.refl hl, rfl, rfl, rfl, rfl⟩
    exact .after hq
      (@areadRefill_shadows δ _ ch off io₁ hl hfd
        ⟨⟨Nat.le_refl 0, Nat.zero_le _, hb.aendpos⟩, hb.armor⟩ rfl)
  · have hac' : ¬ (erase ch io).ib.acur = (erase ch io).ib.asize := hac
    have hsize' : ¬ (erase ch io).ib.asize = 0 := by simp only [erase]; omega
    rw [if_neg hac, if_neg hac', if_neg (by omega), if_neg hsize']
    exact .some (.refl hl) hb

/-- The loop of `aread`. -/
theorem areadLoop_shadows (fuel : Nat) : ∀ (n off : Nat) {io : Io δ}, ch.Sound io.dev →
    io.ib.fd = ch.fi → Opened io.ib →
    Shadows ch .ioerr io (areadLoop fuel n off io) (areadLoop fuel n off (erase ch io)) := by
  induction fuel with
  | zero =>
    intro n off io hl hfd hb
    rcases n with _ | n
    · exact .some (.refl hl) hb
    · exact .none
  | succ fuel ih =>
    intro n off io hl hfd hb
    rcases n with _ | n
    · exact .some (.refl hl) hb
    refine .bind (areadFetch_shadows off hl hfd hb) (fun _ => rfl) ?_
    rintro (_ | r) io₁ - hq₁ hb₁
    · simp only [show (erase ch io₁).ib.acur = io₁.ib.acur from rfl,
        show (erase ch io₁).ib.asize = io₁.ib.asize from rfl,
        show (erase ch io₁).ib.abuf = io₁.ib.abuf from rfl,
        show (erase ch io₁).ib.buf = io₁.ib.buf from rfl]
      generalize hc : min (io₁.ib.asize - io₁.ib.acur) (n + 1) = c
      rcases io₁.ib.abuf.load io₁.ib.acur c with _ | bs
      · exact .none
      simp only [Option.bind_eq_bind, Option.bind_some]
      rcases io₁.ib.buf.store off bs with _ | buf
      · exact .none
      simp only [Option.bind_some]
      have hcur := hb₁.acur
      let io₂ : Io δ := { io₁ with ib := { io₁.ib with buf, acur := io₁.ib.acur + c } }
      have hq₂ : Quiet ch io₁ io₂ := ⟨.refl hq₁.kept.sound, rfl, rfl, rfl, rfl⟩
      exact .after hq₂
        (@ih (n + 1 - c) (off + c) io₂ hq₁.kept.sound (hq₁.fd.trans hfd)
          ⟨⟨by simp only [io₂]; omega, hb₁.asize, hb₁.aendpos⟩, hb₁.armor⟩)
    · exact .some (.refl hq₁.kept.sound) hb₁

theorem fill_shadows {io : Io δ} (hl : ch.Sound io.dev) (hfd : io.ib.fd = ch.fi)
    (hb : Opened io.ib) : Shadows ch .ioerr io (fill io) (fill (erase ch io)) := by
  have harm : io.ib.isarmor.holds = true := by simp [hb.armor, Armored.holds]
  rw [fill, if_pos harm, fill, if_pos (by exact harm)]
  exact areadLoop_shadows _ _ _ hl hfd hb

/-- The buffer is recorded and emptied. -/
theorem dropBuffer_erase {io : Io δ} (hl : ch.Sound io.dev) :
    dropBuffer (erase ch io) = (dropBuffer io).map (erase ch) := by
  simp only [dropBuffer, show (erase ch io).ib.recording = io.ib.recording from rfl,
    show (erase ch io).ib.size = io.ib.size from rfl,
    show (erase ch io).ib.buf = io.ib.buf from rfl]
  by_cases hrec : io.ib.recording ∧ io.ib.size > 0
  · rw [if_pos hrec, if_pos hrec]
    rcases io.ib.buf.load 0 io.ib.size with _ | src
    · rfl
    · simp only [Option.bind_eq_bind, Option.bind_some, ← recappend_erase src hl]
      rfl
  · rw [if_neg hrec, if_neg hrec]
    rfl

theorem dropBuffer_quiet {io io' : Io δ} (hl : ch.Sound io.dev) (hb : Opened io.ib)
    (h : dropBuffer io = some io') : Quiet ch io io' ∧ Opened io'.ib := by
  unfold dropBuffer at h
  by_cases hrec : io.ib.recording ∧ io.ib.size > 0
  · rw [if_pos hrec] at h
    rcases hload : io.ib.buf.load 0 io.ib.size with _ | src
    · simp [hload] at h
    · have hr : Recorded ch io _ := recappend_recorded src hl.live
      simp only [hload, Option.bind_eq_bind, Option.bind_some, Option.some.injEq] at h
      subst h
      refine ⟨⟨hr.frame.kept.calm hl, hr.frame.accepted, hr.frame.fd, hr.frame.ob, hr.frame.data⟩,
        ?_⟩
      simp only
      rw [hr.ib]
      exact ⟨⟨hb.acur, hb.asize, hb.aendpos⟩, hb.armor⟩
  · rw [if_neg hrec] at h
    simp only [Option.bind_eq_bind, Option.bind_some, Option.some.injEq] at h
    subst h
    exact ⟨⟨.refl hl, rfl, rfl, rfl, rfl⟩, ⟨hb.acur, hb.asize, hb.aendpos⟩, hb.armor⟩

/-- A change of the cursor, the size or the flag `eof` only. -/
private theorem Opened.keep {io : Io δ} (hb : Opened io.ib) (io' : Io δ) (hl : ch.Sound io.dev)
    (hdev : io'.dev = io.dev) (hob : io'.ob = io.ob) (hdata : io'.data = io.data)
    (hib : ∃ eof cur size, io'.ib = { io.ib with eof, cur, size }) :
    Quiet ch io io' ∧ Opened io'.ib := by
  obtain ⟨eof, cur, size, hib⟩ := hib
  rw [hib]
  exact ⟨⟨by rw [hdev]; exact .refl hl, by rw [hdev], by rw [hib], hob, hdata⟩,
    ⟨hb.acur, hb.asize, hb.aendpos⟩, hb.armor⟩

theorem breadFetch_shadows {io : Io δ} (hl : ch.Sound io.dev) (hfd : io.ib.fd = ch.fi)
    (hb : Opened io.ib) :
    Shadows ch (some false) io (breadFetch io) (breadFetch (erase ch io)) := by
  unfold breadFetch
  by_cases hfill : io.ib.size = 0 ∧ io.ib.eof = false
  · have hfill' : (erase ch io).ib.size = 0 ∧ (erase ch io).ib.eof = false := hfill
    rw [if_pos hfill, if_pos hfill']
    refine .bind (fill_shadows hl hfd hb) (fun _ => rfl) ?_
    rintro (_ | _ | _ | n) io₁ - hq hb₁
    · exact .some (.refl hq.kept.sound) hb₁
    · have hl₁ := hq.kept.sound
      have hq₁ : Quiet ch io₁ (eset "armor format error" io₁) := ⟨.refl hl₁, rfl, rfl, rfl, rfl⟩
      exact .some hq₁ hb₁
    · obtain ⟨hq', hb'⟩ := hb₁.keep { io₁ with ib := { io₁.ib with eof := true } }
        hq.kept.sound rfl rfl rfl ⟨_, _, _, rfl⟩
      exact .some hq' hb'
    · obtain ⟨hq', hb'⟩ := hb₁.keep { io₁ with ib := { io₁.ib with size := n + 1 } }
        hq.kept.sound rfl rfl rfl ⟨_, _, _, rfl⟩
      exact .some hq' hb'
  · have hfill' : ¬ ((erase ch io).ib.size = 0 ∧ (erase ch io).ib.eof = false) := hfill
    rw [if_neg hfill, if_neg hfill']
    exact .some (.refl hl) hb

/-- After the buffer has been recorded and emptied. -/
private theorem dropBuffer_then {β : Type} {bad : β} {io : Io δ}
    {f : Io δ → Option (β × Io δ)} {g : Io Tape → Option (β × Io Tape)} (hl : ch.Sound io.dev)
    (hb : Opened io.ib)
    (hf : ∀ io', Quiet ch io io' → Opened io'.ib → Shadows ch bad io' (f io') (g (erase ch io'))) :
    Shadows ch bad io ((dropBuffer io).bind f) ((dropBuffer (erase ch io)).bind g) := by
  rw [dropBuffer_erase hl]
  rcases h : dropBuffer io with _ | io'
  · exact .none
  · obtain ⟨hq, hb'⟩ := dropBuffer_quiet hl hb h
    exact .after hq (hf io' hq hb')

theorem breadRefill_shadows {io : Io δ} (hl : ch.Sound io.dev) (hfd : io.ib.fd = ch.fi)
    (hb : Opened io.ib) :
    Shadows ch (some false) io (breadRefill io) (breadRefill (erase ch io)) := by
  unfold breadRefill
  by_cases hcs : io.ib.cur = io.ib.size
  · have hcs' : (erase ch io).ib.cur = (erase ch io).ib.size := hcs
    rw [if_pos hcs, if_pos hcs']
    exact dropBuffer_then hl hb fun io' hq hb' =>
      breadFetch_shadows hq.kept.sound (hq.fd.trans hfd) hb'
  · have hcs' : ¬ (erase ch io).ib.cur = (erase ch io).ib.size := hcs
    rw [if_neg hcs, if_neg hcs']
    exact breadFetch_shadows hl hfd hb

/-- The loop of `bread`. -/
theorem breadLoop_shadows (fuel : Nat) : ∀ (n : Nat) (acc : List UInt8) {io : Io δ},
    ch.Sound io.dev → io.ib.fd = ch.fi → Opened io.ib →
    Shadows ch none io (breadLoop fuel n acc io) (breadLoop fuel n acc (erase ch io)) := by
  induction fuel with
  | zero =>
    intro n acc io hl hfd hb
    rcases n with _ | n
    · exact .some (.refl hl) hb
    · exact .none
  | succ fuel ih =>
    intro n acc io hl hfd hb
    rcases n with _ | n
    · exact .some (.refl hl) hb
    refine .bind (breadRefill_shadows hl hfd hb) (fun _ => rfl) ?_
    rintro (_ | _ | _) io₁ - hq₁ hb₁
    · simp only [show (erase ch io₁).ib.cur = io₁.ib.cur from rfl,
        show (erase ch io₁).ib.size = io₁.ib.size from rfl,
        show (erase ch io₁).ib.eof = io₁.ib.eof from rfl,
        show (erase ch io₁).ib.buf = io₁.ib.buf from rfl]
      by_cases hend : io₁.ib.size - io₁.ib.cur = 0 ∧ io₁.ib.eof = true
      · rw [if_pos hend, if_pos hend]
        exact .some (.refl hq₁.kept.sound) hb₁
      rw [if_neg hend, if_neg hend]
      generalize min (io₁.ib.size - io₁.ib.cur) (n + 1) = c
      rcases io₁.ib.buf.load io₁.ib.cur c with _ | bs
      · exact .none
      simp only [Option.bind_eq_bind, Option.bind_some]
      obtain ⟨hq, hb₂⟩ := hb₁.keep
        { io₁ with ib := { io₁.ib with cur := io₁.ib.cur + c } }
        hq₁.kept.sound rfl rfl rfl ⟨_, _, _, rfl⟩
      exact .after hq (ih (n + 1 - c) (acc ++ bs) hq.kept.sound
        (hq.fd.trans (hq₁.fd.trans hfd)) hb₂)
    · exact .some (.refl hq₁.kept.sound) hb₁
    · exact .some (.refl hq₁.kept.sound) hb₁

/-- An armored input before or behind its header line. -/
def ArmorInput (ib : Ibuf) (unread : List UInt8) : Prop :=
  Opened ib ∨ (Bounded ib ∧ ib.isarmor = .unchecked ∧ armorfirst <+: unread)

theorem probe_shadows {io : Io δ} (hl : ch.Sound io.dev) (hfd : io.ib.fd = ch.fi)
    (hb : ArmorInput io.ib (ch.unread io.dev)) :
    Shadows ch false io (probe io) (probe (erase ch io)) := by
  rcases hb with hb | ⟨hb, hun, harm⟩
  · have hno : ¬ io.ib.isarmor = .unchecked := by simp [hb.armor]
    have hno' : ¬ (erase ch io).ib.isarmor = .unchecked := hno
    rw [probe, probe, if_neg hno, if_neg hno']
    exact .some (.refl hl) hb
  have hun' : (erase ch io).ib.isarmor = .unchecked := hun
  obtain ⟨rest, hrest⟩ := harm
  obtain ⟨bs, fin, d', h, hacc, hcases⟩ := ch.readall_spec hl.live armorfirst.length
  have hb35 : bs.length ≤ 35 := by
    rcases hcases with ⟨-, -, hlen, -⟩ | ⟨-, rfl, -⟩
    · exact hlen
    · rw [List.length_take, length_armorfirst]
      omega
  obtain ⟨buf, hbuf⟩ := io.ib.buf.store_isSome 0 bs (by rw [IOBUFSIZE]; omega)
  rw [probe, probe, if_pos hun, if_pos hun', isarmor, isarmor, hfd, h]
  simp only [show (erase ch io).ib.buf = io.ib.buf from rfl]
  rcases hcases with ⟨rfl, hlost, -⟩ | ⟨hk, rfl, hu, rfl⟩
  · simp only [Option.bind_eq_bind, Option.bind_some, hbuf]
    exact .lost hlost ⟨hb.acur, hb.asize, hb.aendpos⟩
  have htake : (ch.unread io.dev).take armorfirst.length = armorfirst := by
    rw [← hrest, List.take_left]
  have hfull : readEnd armorfirst.length (ch.unread io.dev) = .full := by
    rw [readEnd, ← hrest, if_pos (by rw [List.length_append]; omega)]
  rw [erase_readall (hk.calm hl) hu, htake, hfull]
  rw [htake] at hbuf
  simp only [Option.bind_eq_bind, Option.bind_some, hbuf]
  exact .some ⟨hk.calm hl, hacc, rfl, rfl, rfl⟩ ⟨⟨hb.acur, hb.asize, hb.aendpos⟩, rfl⟩

/-- `bread` on an armored input. -/
theorem bread_shadows (n : Nat) {io : Io δ} (hl : ch.Sound io.dev) (hfd : io.ib.fd = ch.fi)
    (hb : ArmorInput io.ib (ch.unread io.dev)) :
    Shadows ch none io (bread n io) (bread n (erase ch io)) := by
  unfold bread
  refine .bind (probe_shadows hl hfd hb) (fun _ => rfl) ?_
  rintro (_ | _) io₁ - hq hb₁
  · exact .some (.refl hq.kept.sound) hb₁
  · exact breadLoop_shadows n n [] hq.kept.sound (hq.fd.trans hfd) hb₁

/-- `bpeek` on an armored input. -/
theorem bpeek_shadows {io : Io δ} (hl : ch.Sound io.dev) (hfd : io.ib.fd = ch.fi)
    (hb : ArmorInput io.ib (ch.unread io.dev)) :
    Shadows ch .err io (bpeek io) (bpeek (erase ch io)) := by
  unfold bpeek
  refine .bind (probe_shadows hl hfd hb) (fun _ => rfl) ?_
  rintro (_ | _) io₁ - hq₁ hb₁
  · exact .some (.refl hq₁.kept.sound) hb₁
  simp only [show (erase ch io₁).ib.cur = io₁.ib.cur from rfl,
    show (erase ch io₁).ib.size = io₁.ib.size from rfl,
    show (erase ch io₁).ib.eof = io₁.ib.eof from rfl,
    show (erase ch io₁).ib.buf = io₁.ib.buf from rfl, not_true_eq_false, if_false]
  by_cases hend : io₁.ib.eof = true ∧ io₁.ib.cur = io₁.ib.size
  · rw [if_pos hend, if_pos hend]
    exact .some (.refl hq₁.kept.sound) hb₁
  rw [if_neg hend, if_neg hend]
  by_cases hlt : io₁.ib.cur < io₁.ib.size
  · rw [if_pos hlt, if_pos hlt]
    rcases io₁.ib.buf.load io₁.ib.cur 1 with _ | bs
    · exact .none
    · exact .some (.refl hq₁.kept.sound) hb₁
  rw [if_neg hlt, if_neg hlt]
  refine dropBuffer_then hq₁.kept.sound hb₁ fun io₂ hq₂ hb₂ => ?_
  refine .bind (fill_shadows hq₂.kept.sound (hq₂.fd.trans (hq₁.fd.trans hfd)) hb₂)
    (fun _ => rfl) ?_
  have htail : ∀ (nr : Nr) {io₃ : Io δ}, ch.Sound io₃.dev → Opened io₃.ib →
      Shadows ch Peek.err io₃
        ((({ io₃.ib with size := nr.toUsize } : Ibuf).buf.load 0 1).bind fun bs =>
          some (.char (bs.headD 0), { io₃ with ib := { io₃.ib with size := nr.toUsize } }))
        ((({ (erase ch io₃).ib with size := nr.toUsize } : Ibuf).buf.load 0 1).bind fun bs =>
          some (.char (bs.headD 0),
            { erase ch io₃ with ib := { (erase ch io₃).ib with size := nr.toUsize } })) := by
    intro nr io₃ hl₃ hb₃
    simp only [show (erase ch io₃).ib.buf = io₃.ib.buf from rfl]
    rcases io₃.ib.buf.load 0 1 with _ | bs
    · exact .none
    · obtain ⟨hq, hb⟩ := hb₃.keep { io₃ with ib := { io₃.ib with size := nr.toUsize } }
        hl₃ rfl rfl rfl ⟨_, _, _, rfl⟩
      exact .some hq hb
  rintro (_ | _ | _ | n) io₃ - hq₃ hb₃
  · exact .some (.refl hq₃.kept.sound) hb₃
  · exact htail _ hq₃.kept.sound hb₃
  · obtain ⟨hq, hb⟩ := hb₃.keep { io₃ with ib := { io₃.ib with eof := true } }
      hq₃.kept.sound rfl rfl rfl ⟨_, _, _, rfl⟩
    exact .some hq hb
  · exact htail _ hq₃.kept.sound hb₃

end Agecrypt
