import Agecrypt.Agec.Stable
import Agecrypt.Agec.Unarmor
import Agecrypt.Agec.Writer
import Agecrypt.Lib.Simulation

/-!
# The code refines the machine

`Rel` relates a state of `io.c` over any descriptors to a state of the
machine `Am`.  Each operation either meets a failed call and reports it, or
does on the two states the same.  By the simulation theorems this holds of
every program:

* `concrete_simulates`: a run in which no call failed has the outcome of the
  machine;
* `machine_simulates`: on a steady system every outcome of the machine is
  that of the code, as long as its output has room.
-/

namespace Agecrypt

variable {δ : Type} [Descr δ]

/-- The input of the machine that belongs to a state. -/
inductive InpRel (ch : Chan δ) (ib : Ibuf) (d : δ) : Inp → Prop
  | src (f : Feed ch) {s : Src} : f.ready d → SrcRel f ib (ch.unread d) s → InpRel ch ib d (.src s)
  | armor : ch.allocates d → ArmorInput ib (ch.unread d) →
      InpRel ch ib d (.armor { ib with fd := 0 } (ch.unread d))

/-- Neither the input nor the system's readiness for it changed. -/
theorem InpRel.next {ch : Chan δ} {ib : Ibuf} {d d' : δ} {inp : Inp} (h : InpRel ch ib d inp)
    (hl : ch.live d') (hal : ch.allocates d → ch.allocates d')
    (hu : ch.unread d' = ch.unread d) : InpRel ch ib d' inp := by
  rcases h with ⟨f, hf, hr⟩ | ⟨ha, hr⟩
  · exact .src f (f.next hf hl hal) (by rwa [hu])
  · rw [← hu] at hr ⊢
    exact .armor (hal ha) hr

structure Rel (ch : Chan δ) (io : Io δ) (am : Am) : Prop where
  live : ch.live io.dev
  still : ch.quiet ∨ ch.allocates io.dev
  fi : io.ib.fd = ch.fi
  inp : InpRel ch io.ib io.dev am.inp
  snk : SnkRel ch io am.snk
  draws : ch.draws io.dev = am.draws
  ebuf : io.ebuf = am.ebuf
  errno : Descr.strerror io.dev = am.errno

variable {ch : Chan δ}

/-- The results by which an operation reports a failed call. -/
def RwOp.Failed : (op : RwOp) → RwRet op → Prop
  | .rd (.bread _), r => r = none
  | .rd .bpeek, r => r = .err
  | .wr (.bwrite _), r => r = false
  | .wr .bflush, r => r = false
  | .wr (.writeall _), r => r = false
  | _, _ => False

/-- A call failed during an operation that the machine ends in `y`. -/
structure Lost {α : Type} (ch : Chan δ) (io io' : Io δ) (y : Option (α × Am)) : Prop where
  fails : ch.fails io.dev < ch.fails io'.dev
  unsteady : ∀ r am', y = some (r, am') → ch.room am'.snk.sent.length → ¬ ch.steady io.dev

/-- No call failed during the operation. -/
structure Went (ch : Chan δ) (io io' : Io δ) (am' : Am) : Prop where
  rel : Rel ch io' am'
  fails : ch.fails io'.dev = ch.fails io.dev
  steady : ch.steady io.dev → ch.steady io'.dev

/-- One operation on related states. -/
def Agrees {α : Type} (ch : Chan δ) (failed : α → Prop) (io : Io δ)
    (x : Option (α × Io δ)) (y : Option (α × Am)) : Prop :=
  (∃ r io', x = some (r, io') ∧ failed r ∧ Lost ch io io' y) ∨
  (x = none ∧ y = none) ∨
  ∃ r io' am', x = some (r, io') ∧ y = some (r, am') ∧ Went ch io io' am'

theorem Chan.ReadLost.lost {α : Type} {io io' : Io δ} {y : Option (α × Am)}
    (h : ch.ReadLost io.dev io'.dev) : Lost ch io io' y :=
  ⟨h.fails, fun _ _ _ _ => h.unsteady⟩

namespace Rel

variable {io : Io δ} {am : Am}

/-- After a read. -/
theorem read (h : Rel ch io am) {io' : Io δ} {inp : Inp} {ebuf : String}
    (hk : ch.Kept io.dev io'.dev) (hacc : ch.accepted io'.dev = ch.accepted io.dev)
    (hfd : io'.ib.fd = io.ib.fd)
    (hob : io'.ob = io.ob) (hinp : InpRel ch io'.ib io'.dev inp) (he : io'.ebuf = ebuf) :
    Went ch io io' { am with inp, ebuf } :=
  ⟨⟨hk.live, h.still.imp_right hk.allocates, hfd.trans h.fi, hinp,
      ⟨by rw [hob]; exact h.snk.fd, by rw [hob]; exact h.snk.isarmor, by rw [hob]; exact h.snk.cur,
        by rw [hob]; exact h.snk.held, hacc.trans h.snk.sent⟩,
      hk.draws.trans h.draws, he, (hk.errno h.still).trans h.errno⟩, hk.fails, hk.steady⟩

/-- After a write. -/
theorem write (h : Rel ch io am) {io' : Io δ} {k : Snk} {ok : Bool} (hw : Wrote ch io io')
    (ho : Outcome ch io k ok io') :
    (ok = false ∧ Lost (α := Bool) ch io io' (some (true, { am with snk := k }))) ∨
    (ok = true ∧ Went ch io io' { am with snk := k }) := by
  rcases ho with ⟨hok, hf, hn⟩ | ⟨hok, hk, hr⟩
  · refine .inl ⟨hok, hf, ?_⟩
    rintro r am' he hroom hst
    obtain ⟨-, rfl⟩ := Prod.mk.inj (Option.some.inj he)
    exact hn ⟨hst, hroom⟩
  · exact .inr ⟨hok, ⟨hk.live, h.still.imp_right hk.allocates, by rw [hw.ib]; exact h.fi,
      by rw [hw.ib]; exact h.inp.next hk.live hk.allocates hw.unread, hr, hk.draws.trans h.draws,
      hw.ebuf.trans h.ebuf, (hk.errno h.still).trans h.errno⟩, hk.fails, hk.steady⟩

end Rel

/-! ## The operations -/

/-- The result of a read of an armored input. -/
private theorem agrees_of_shadows {α : Type} {bad : α} {failed : α → Prop} {io : Io δ} {am : Am}
    {x : Option (α × Io δ)} {y : Option (α × Io Tape)} (h : Rel ch io am) (hbad : failed bad)
    (hs : Shadows ch bad io x y) :
    Agrees ch failed io x (y.map (fun p => (p.1, am.untape p.2))) := by
  rcases hs with ⟨io', rfl, hl, -⟩ | ⟨rfl, hx⟩
  · exact .inl ⟨bad, io', rfl, hbad, hl.lost⟩
  rcases x with _ | ⟨r, io'⟩
  · exact .inr (.inl ⟨rfl, rfl⟩)
  obtain ⟨hq, ho⟩ := hx r io' rfl
  exact .inr (.inr ⟨r, io', _, rfl, rfl,
    h.read hq.kept.kept hq.accepted hq.fd hq.ob (.armor hq.kept.sound.allocates (.inl ho)) rfl⟩)

private theorem Rel.tape {io : Io δ} {am : Am} (h : Rel ch io am) :
    am.tape { io.ib with fd := 0 } (ch.unread io.dev) = erase ch io := by
  simp only [Am.tape, erase, h.ebuf, h.errno]

theorem bread_agrees (n : Nat) {io : Io δ} {am : Am} (h : Rel ch io am) :
    Agrees ch (· = none) io (bread n io) (am.bread n) := by
  have hr := h.inp
  unfold Am.bread
  generalize am.inp = inp at hr
  rcases hr with ⟨f, hl, hr⟩ | ⟨hal, harm⟩
  · rcases bread_spec n hl h.fi hr with ⟨io', hb, hl⟩ | ⟨io', hb, hfr, hr'⟩
    · exact .inl ⟨none, io', hb, rfl, hl.lost⟩
    · exact .inr (.inr ⟨_, io', _, hb, rfl,
        h.read hfr.kept hfr.accepted hfr.fd hfr.ob (.src f (f.kept hl hfr.kept) hr')
          (hfr.ebuf.trans h.ebuf)⟩)
  · simp only [h.tape]
    exact agrees_of_shadows h rfl (bread_shadows n ⟨h.live, hal⟩ h.fi harm)

theorem bpeek_agrees {io : Io δ} {am : Am} (h : Rel ch io am) :
    Agrees ch (· = .err) io (bpeek io) am.bpeek := by
  have hr := h.inp
  unfold Am.bpeek
  generalize am.inp = inp at hr
  rcases hr with ⟨f, hl, hr⟩ | ⟨hal, harm⟩
  · rcases bpeek_spec hl h.fi hr with ⟨io', hb, hl⟩ | ⟨io', hb, hfr, hr'⟩
    · exact .inl ⟨.err, io', hb, rfl, hl.lost⟩
    · exact .inr (.inr ⟨_, io', _, hb, rfl,
        h.read hfr.kept hfr.accepted hfr.fd hfr.ob (.src f (f.kept hl hfr.kept) hr')
          (hfr.ebuf.trans h.ebuf)⟩)
  · simp only [h.tape]
    exact agrees_of_shadows h rfl (bpeek_shadows ⟨h.live, hal⟩ h.fi harm)

theorem ibeof_agrees {io : Io δ} {am : Am} (h : Rel ch io am) : io.ib.eof = am.ibeof := by
  have hr := h.inp
  unfold Am.ibeof
  generalize am.inp = inp at hr
  rcases hr with ⟨f, -, hr⟩ | ⟨-, -⟩
  · rcases hr with hs | ⟨p, -, -, -, -, heof, -, -⟩
    · exact (f.start_eof hs).symm
    · exact heof.symm
  · rfl

theorem err_agrees (o : ErrOp) {io : Io δ} {am : Am} (h : Rel ch io am) :
    (errHandler o io).1 = (am.err o).1 ∧ Went ch io (errHandler o io).2 (am.err o).2 := by
  have hsnk : ∀ ebuf, SnkRel ch { io with ebuf } am.snk := fun _ =>
    ⟨h.snk.fd, h.snk.isarmor, h.snk.cur, h.snk.held, h.snk.sent⟩
  rcases o with e | _ | ⟨outer, inner⟩
  · exact ⟨rfl, ⟨h.live, h.still, h.fi, h.inp, hsnk _, h.draws, rfl, h.errno⟩, rfl, id⟩
  · exact ⟨by simp only [errHandler, Am.err, eget, Am.eget, h.ebuf, h.errno], h, rfl, id⟩
  · exact ⟨rfl, ⟨h.live, h.still, h.fi, h.inp, hsnk _, h.draws, rfl, h.errno⟩, rfl, id⟩

/-- Every operation of the code meets a failed call, or agrees with the
machine. -/
theorem rw_agrees (o : RwOp) {io : Io δ} {am : Am} (h : Rel ch io am) :
    Agrees ch o.Failed io (rwHandler o io) (amHandler o am) := by
  have herr : ∀ e : ErrOp, Agrees ch (fun _ => False) io (some (errHandler e io))
      (some (am.err e)) := by
    intro e
    obtain ⟨hr, hw⟩ := err_agrees e h
    exact .inr (.inr ⟨(errHandler e io).1, _, (am.err e).2, rfl, by rw [hr], hw⟩)
  have hout : ∀ {x : Option (Bool × Io δ)} {k : Snk},
      (∃ ok io', x = some (ok, io') ∧ Wrote ch io io' ∧ Outcome ch io k ok io') →
      Agrees ch (· = false) io x (some (true, { am with snk := k })) := by
    rintro x k ⟨ok, io', rfl, hw, ho⟩
    rcases h.write hw ho with ⟨rfl, hl⟩ | ⟨rfl, hwent⟩
    · exact .inl ⟨false, io', rfl, rfl, hl⟩
    · exact .inr (.inr ⟨true, io', _, rfl, rfl, hwent⟩)
  rcases o with (n | _ | _ | _ | e) | (bs | _ | bs | _ | n | e)
  · exact bread_agrees n h
  · exact bpeek_agrees h
  · exact .inr (.inr ⟨_, _, _, rfl, by rw [ibeof_agrees h]; rfl, h, rfl, id⟩)
  · exact .inr (.inl ⟨rfl, rfl⟩)
  · exact herr e
  · exact hout (bwrite_spec bs h.live h.snk)
  · exact hout (bflush_spec h.live h.snk)
  · obtain ⟨ok, d', hw, hwr, ho⟩ := writeall_spec bs h.live h.snk
    refine hout ⟨ok, { io with dev := d' }, ?_, hwr, ho⟩
    change (writeall io.ob.fd bs io.dev).map _ = _
    rw [hw]
    rfl
  · exact .inr (.inr ⟨_, _, _, rfl, by rw [h.snk.isarmor]; rfl, h, rfl, id⟩)
  · rcases hd : Descr.randombuf n io.dev with ⟨r, d'⟩
    obtain ⟨rfl, hdraws, hu, ha, he, hf, hl, hs, hal⟩ := ch.random_ok h.live hd
    refine .inr (.inr ⟨(ch.draws io.dev 0).bytes n, { io with dev := d' },
      { am with draws := fun i => am.draws (i + 1) }, ?_, ?_, ⟨⟨hl, h.still.imp_right hal, h.fi, ?_,
        ?_, ?_, h.ebuf, he.trans h.errno⟩, hf, hs⟩⟩)
    · rw [show rwHandler (.wr (.randombuf n)) io = some ((Descr.randombuf n io.dev).1,
        { io with dev := (Descr.randombuf n io.dev).2 }) from rfl, hd]
    · rw [h.draws]
      rfl
    · exact h.inp.next hl hal hu
    · exact ⟨h.snk.fd, h.snk.isarmor, h.snk.cur, h.snk.held, ha.trans h.snk.sent⟩
    · rw [hdraws, h.draws]
  · exact herr e

/-! ## Whole runs -/

theorem fails_stable (ch : Chan δ) (n : Nat) :
    Stable ch.fi ch.fo (fun d => ch.live d ∧ n ≤ ch.fails d) where
  ageread := by
    rintro d k (_ | bs) d' ⟨hl, hf⟩ hk h
    · obtain ⟨-, -, hlt, hl', -⟩ := ch.read_fail hl h
      exact ⟨hl', by omega⟩
    · obtain ⟨-, -, -, -, -, -, he, hl', -⟩ := ch.read_ok hl hk h
      exact ⟨hl', by omega⟩
  agewrite := by
    rintro d bs (_ | k) d' ⟨hl, hf⟩ hk h
    · obtain ⟨-, hlt, hl', -⟩ := ch.write_fail hl h
      exact ⟨hl', by omega⟩
    · obtain ⟨-, -, -, -, -, -, he, hl', -⟩ := ch.write_ok hl hk h
      exact ⟨hl', by omega⟩
  alloc := by
    rintro d k b d' ⟨hl, hf⟩ h
    obtain ⟨-, -, -, -, -, he, hl', -⟩ := ch.alloc_ok hl h
    exact ⟨hl', by omega⟩
  randombuf := by
    rintro d k b d' ⟨hl, hf⟩ h
    obtain ⟨-, -, -, -, -, he, hl', -⟩ := ch.random_ok hl h
    exact ⟨hl', by omega⟩

/-- The states in which more than `n` calls have failed. -/
def Broken (ch : Chan δ) (n : Nat) (io : Io δ) : Prop :=
  Stays ch.fi ch.fo (fun d => ch.live d ∧ n + 1 ≤ ch.fails d) io

/-- A run in which no call fails has the outcome of the machine. -/
theorem concrete_simulates (ch : Chan δ) (n : Nat) :
    Prog.Simulates (rwHandler (δ := δ)) amHandler (fun io => ¬ Broken ch n io)
      (fun io am => Rel ch io am ∧ ch.fails io.dev = n) where
  guard_back := fun o io r io' h hg hb =>
    hg (rwHandler_stable (fails_stable ch (n + 1)) o hb r io' h)
  step := by
    rintro o io am r io' ⟨hr, hf⟩ h hg
    rcases rw_agrees o hr with ⟨r', io₁, hx, -, hl⟩ | ⟨hx, -⟩ | ⟨r', io₁, am', hx, hy, hw⟩
    · rw [hx] at h
      obtain ⟨rfl, rfl⟩ := Prod.mk.inj (Option.some.inj h)
      have hs₀ : Stays ch.fi ch.fo (fun d => ch.live d ∧ 0 ≤ ch.fails d) io :=
        ⟨⟨hr.live, Nat.zero_le _⟩, hr.fi, hr.snk.fd⟩
      have hs := rwHandler_stable (fails_stable ch 0) o hs₀ _ _ hx
      have hlt := hl.fails
      exact absurd ⟨⟨hs.dev.1, by omega⟩, hs.ib, hs.ob⟩ hg
    · rw [hx] at h
      cases h
    · rw [hx] at h
      obtain ⟨rfl, rfl⟩ := Prod.mk.inj (Option.some.inj h)
      exact ⟨am', hy, hw.rel, hw.fails.trans hf⟩

/-- The output of the machine never shrinks. -/
theorem length_sent_amHandler (o : RwOp) {am am' : Am} {r : RwRet o}
    (h : amHandler o am = some (r, am')) : am.snk.sent.length ≤ am'.snk.sent.length := by
  have hread : ∀ {α : Type} {x : Option (α × Io Tape)} {r : α},
      x.map (fun p => (p.1, am.untape p.2)) = some (r, am') → am'.snk = am.snk := by
    intro α x r hx
    obtain ⟨p, -, hp⟩ := Option.map_eq_some_iff.mp hx
    obtain ⟨-, rfl⟩ := Prod.mk.inj hp
    rfl
  rcases o with (n | _ | _ | _ | e) | (bs | _ | bs | _ | n | e)
  · change am.bread n = _ at h
    unfold Am.bread at h
    rcases hinp : am.inp with s | ⟨ib, u⟩
    · rw [hinp] at h
      obtain ⟨-, rfl⟩ := Prod.mk.inj (Option.some.inj h)
      exact Nat.le_refl _
    · rw [hinp] at h
      rw [hread h]
  · change am.bpeek = _ at h
    unfold Am.bpeek at h
    rcases hinp : am.inp with s | ⟨ib, u⟩
    · rw [hinp] at h
      obtain ⟨-, rfl⟩ := Prod.mk.inj (Option.some.inj h)
      exact Nat.le_refl _
    · rw [hinp] at h
      rw [hread h]
  · obtain ⟨-, rfl⟩ := Prod.mk.inj (Option.some.inj h)
    exact Nat.le_refl _
  · cases h
  · obtain ⟨-, rfl⟩ := Prod.mk.inj (Option.some.inj h)
    rcases e with e | _ | ⟨outer, inner⟩ <;> exact Nat.le_refl _
  · obtain ⟨-, rfl⟩ := Prod.mk.inj (Option.some.inj h)
    exact Snk.length_sent_bwrite bs am.snk
  · obtain ⟨-, rfl⟩ := Prod.mk.inj (Option.some.inj h)
    simp [Snk.bflush]
  · obtain ⟨-, rfl⟩ := Prod.mk.inj (Option.some.inj h)
    simp [Snk.writeall]
  · obtain ⟨-, rfl⟩ := Prod.mk.inj (Option.some.inj h)
    exact Nat.le_refl _
  · obtain ⟨-, rfl⟩ := Prod.mk.inj (Option.some.inj h)
    exact Nat.le_refl _
  · obtain ⟨-, rfl⟩ := Prod.mk.inj (Option.some.inj h)
    rcases e with e | _ | ⟨outer, inner⟩ <;> exact Nat.le_refl _

/-- On a steady system every outcome of the machine is that of the code, as
long as its output has room. -/
theorem machine_simulates (ch : Chan δ) :
    Prog.Simulates amHandler (rwHandler (δ := δ)) (fun am => ch.room am.snk.sent.length)
      (fun am io => Rel ch io am ∧ ch.steady io.dev) where
  guard_back := fun o am r am' h hg => ch.room_mono (length_sent_amHandler o h) hg
  step := by
    rintro o am io r am' ⟨hr, hst⟩ h hg
    rcases rw_agrees o hr with ⟨r', io₁, hx, -, hl⟩ | ⟨-, hy⟩ | ⟨r', io₁, am₁, hx, hy, hw⟩
    · exact absurd hst (hl.unsteady r am' h hg)
    · rw [hy] at h
      cases h
    · rw [hy] at h
      obtain ⟨rfl, rfl⟩ := Prod.mk.inj (Option.some.inj h)
      exact ⟨io₁, hx, hw.rel, hw.steady hst⟩

end Agecrypt
