import Agecrypt.Agec.Flow
import Agecrypt.Agec.Recording

/-!
# Reading any armored text

`armorFeed` is about texts that are accepted, over systems that have memory.
Here the text may be refused, and recording the header may fail for want of
memory: armored text is a `Flow`.  `Ahead ch io rest ok` says that the reads
will deliver `rest`, from the probe on.

A refill does not allocate.  It is the same on the system `roomy`, on which
every allocation succeeds, and `fill_armor` holds there.
-/

namespace Agecrypt

variable {δ : Type} [inst : Descr δ]

/-! ## A refill does not allocate -/

/-- The calls of the system, but allocation always succeeds. -/
abbrev roomy (inst : Descr δ) : Descr δ := { inst with alloc := fun _ d => (true, d) }

theorem ageread_roomy (fd : Int) (n : Nat) (d : δ) :
    @Descr.ageread δ (roomy inst) fd n d = Descr.ageread fd n d := rfl

theorem readallLoop_roomy (fd : Int) (fuel : Nat) : ∀ (n : Nat) (acc : List UInt8) (d : δ),
    @readallLoop δ (roomy inst) fd fuel n acc d = readallLoop fd fuel n acc d := by
  induction fuel with
  | zero =>
    intro n acc d
    cases n <;> rfl
  | succ fuel ih =>
    intro n acc d
    cases n with
    | zero => rfl
    | succ n =>
      unfold readallLoop
      simp only [ageread_roomy, ih]

theorem readall_roomy (fd : Int) (n : Nat) (d : δ) :
    @readall δ (roomy inst) fd n d = readall fd n d := readallLoop_roomy fd n n [] d

theorem endskip_roomy (fd : Int) (n : Nat) (d : δ) :
    @endskip δ (roomy inst) fd n d = endskip fd n d := by
  unfold endskip
  simp only [ageread_roomy, readall_roomy]

theorem areadBlock_roomy (raw : List UInt8) (io : Io δ) :
    @areadBlock δ (roomy inst) raw io = areadBlock raw io := by
  unfold areadBlock
  simp only [ageread_roomy, endskip_roomy]

theorem areadFetch_roomy (off : Nat) (io : Io δ) :
    @areadFetch δ (roomy inst) off io = areadFetch off io := by
  unfold areadFetch areadRefill
  simp only [areadBlock_roomy, readall_roomy]

theorem areadLoop_roomy (fuel : Nat) : ∀ (n off : Nat) (io : Io δ),
    @areadLoop δ (roomy inst) fuel n off io = areadLoop fuel n off io := by
  induction fuel with
  | zero =>
    intro n off io
    cases n <;> rfl
  | succ fuel ih =>
    intro n off io
    cases n with
    | zero => rfl
    | succ n =>
      unfold areadLoop
      simp only [areadFetch_roomy, ih]

theorem fill_roomy (io : Io δ) : @fill δ (roomy inst) io = fill io := by
  unfold fill
  simp only [aread, areadLoop_roomy, ageread_roomy]

/-- The channel on the system `roomy`. -/
def Chan.roomy (ch : Chan δ) : @Chan δ (Agecrypt.roomy inst) :=
  @Chan.mk δ (Agecrypt.roomy inst) ch.fi ch.fo ch.unread ch.accepted ch.draws ch.fails ch.live
    (fun _ => True) ch.steady True ch.room ch.room_mono
    (fun hl hn h => by
      obtain ⟨hb, hu, he, ha, hd, her, hf, hl', hs, -⟩ := ch.read_ok hl hn h
      exact ⟨hb, hu, he, ha, hd, her, hf, hl', hs, id⟩)
    ch.read_fail ch.write_meant
    (fun hl hne h => by
      obtain ⟨hk, hkb, ha, hu, hd, her, hf, hl', hs, -⟩ := ch.write_ok hl hne h
      exact ⟨hk, hkb, ha, hu, hd, her, hf, hl', hs, id⟩)
    ch.write_fail
    (fun hl h => by
      obtain ⟨rfl, rfl⟩ := Prod.mk.inj h
      exact ⟨fun _ => rfl, rfl, rfl, rfl, fun _ => rfl, rfl, hl, id, id⟩)
    (fun hl h => by
      obtain ⟨hr, hd, hu, ha, her, hf, hl', hs, -⟩ := ch.random_ok hl h
      exact ⟨hr, hd, hu, ha, her, hf, hl', hs, id⟩)

variable {ch : Chan δ}

/-- No read failed, and the descriptor is the same. -/
structure Passes (ch : Chan δ) (io io' : Io δ) : Prop where
  live : ch.live io'.dev
  steady : ch.steady io.dev → ch.steady io'.dev
  fd : io'.ib.fd = io.ib.fd

theorem Unharmed.passes {io io' : Io δ} (h : Unharmed ch io io') : Passes ch io io' :=
  ⟨h.live, h.steady, h.fd⟩

namespace Passes

theorem refl {io : Io δ} (h : ch.live io.dev) : Passes ch io io := ⟨h, id, rfl⟩

theorem trans {io₁ io₂ io₃ : Io δ} (h : Passes ch io₁ io₂) (h' : Passes ch io₂ io₃) :
    Passes ch io₁ io₃ := ⟨h'.live, fun hs => h'.steady (h.steady hs), h'.fd.trans h.fd⟩

end Passes

/-- What a refill leaves, also when it reports an error. -/
theorem fill_spoilt {io io' : Io δ} {nr : Nr} (h : fill io = some (nr, io'))
    (hl : ch.live io'.dev) : Spoilt ch io io' := by
  have hstable : Stable io.ib.fd io.ob.fd (fun _ : δ => True) :=
    ⟨fun _ _ _ => trivial, fun _ _ _ => trivial, fun _ _ => trivial, fun _ _ => trivial⟩
  exact ⟨hl, (fill_stable hstable ⟨trivial, rfl, rfl⟩ nr io' h).ib, fill_refilled io nr io' h⟩

/-- The outcomes of a refill behind the armor header line. -/
theorem fill_behind {io : Io δ} {p : List UInt8} {ok : Bool} (hl : ch.live io.dev)
    (hfd : io.ib.fd = ch.fi) (ho : Opened io.ib) (hp : Pending io.ib (ch.unread io.dev) p ok) :
    (∃ io', fill io = some (.ioerr, io') ∧ ch.ReadLost io.dev io'.dev ∧ Bounded io'.ib) ∨
    (ok = false ∧ p.length < IOBUFSIZE ∧ ∃ io', fill io = some (.fmterr, io') ∧
      ch.live io'.dev ∧ Bounded io'.ib) ∨
    ((ok = true ∨ IOBUFSIZE ≤ p.length) ∧
      ∃ io', fill io = some (.got (min IOBUFSIZE p.length), io') ∧ Unharmed ch io io' ∧
        Pending io'.ib (ch.unread io'.dev) (p.drop IOBUFSIZE) ok ∧ Opened io'.ib ∧
        Refilled io.ib io'.ib ∧
        io'.ib.buf.window 0 (min IOBUFSIZE p.length) = p.take IOBUFSIZE) := by
  rw [← fill_roomy]
  have hs : @Chan.Sound δ (roomy inst) ch.roomy io.dev :=
    @Chan.Sound.mk δ (roomy inst) ch.roomy io.dev hl trivial
  rcases @fill_armor δ (roomy inst) ch.roomy io p ok hs hfd ho hp with
    ⟨io', h, ⟨hl', hf, hst⟩, hb⟩ |
    ⟨hok, hlen, io', h, ⟨⟨⟨hl', -, -, -, -, -⟩, -, -⟩, -, -, -, -⟩, ho'⟩ |
    ⟨hok, io', h, ⟨⟨hl', -, hf, hst, -, -⟩, -, hfd', -, -, -⟩, hp', ho', hre, hw⟩
  · exact .inl ⟨io', h, ⟨hl', hf, hst⟩, hb⟩
  · exact .inr (.inl ⟨hok, hlen, io', h, hl', ho'.toBounded⟩)
  · exact .inr (.inr ⟨hok, io', h, ⟨hl', hst, hf, hfd'⟩, hp', ho', hre, hw⟩)

/-! ## Behind the header line -/

/-- The buffered bytes and those to come are `rest`, and `ok` says whether
the end of the text is accepted. -/
structure Behind (ch : Chan δ) (io : Io δ) (rest : List UInt8) (ok : Bool) : Prop where
  live : ch.live io.dev
  fd : io.ib.fd = ch.fi
  opened : Opened io.ib
  cur : io.ib.cur ≤ io.ib.size
  size : io.ib.size ≤ IOBUFSIZE
  bytes : ∃ p, Pending io.ib (ch.unread io.dev) p ok ∧
    rest = io.ib.buf.window io.ib.cur io.ib.size ++ p ∧ (io.ib.eof = true → p = [] ∧ ok = true)

/-- An error is due to a read that fails, or to the text. -/
def Due (ch : Chan δ) (io : Io δ) (ok : Bool) : Prop := ch.steady io.dev → ok = false

theorem Passes.due {io io' : Io δ} {ok : Bool} (h : Passes ch io io') (hd : Due ch io' ok) :
    Due ch io ok := fun hs => hd (h.steady hs)

variable {io : Io δ} {rest : List UInt8} {ok : Bool}

/-- The part of the `Ibuf` that `Pending` speaks of. -/
theorem Pending.congr {ib ib' : Ibuf} {u p : List UInt8} (h : Pending ib u p ok)
    (hs : SameFeed ib ib') : Pending ib' u p ok := by
  unfold Pending at h ⊢
  rw [hs.aendpos, hs.abuf, hs.acur, hs.asize]
  exact h

theorem Bounded.congr {ib ib' : Ibuf} (h : Bounded ib) (hs : SameFeed ib ib') : Bounded ib' := by
  refine ⟨?_, ?_, ?_⟩
  · rw [hs.acur, hs.asize]
    exact h.acur
  · rw [hs.asize]
    exact h.asize
  · rw [hs.aendpos]
    exact h.aendpos

theorem Opened.congr {ib ib' : Ibuf} (h : Opened ib) (hs : SameFeed ib ib') : Opened ib' :=
  ⟨h.toBounded.congr hs, hs.isarmor.trans h.armor⟩

variable (ch) in
/-- Armored text, accepted or not, as a flow. -/
def armorFlow : Flow ch where
  holds ib u p ok := Opened ib ∧ Pending ib u p ok
  spoilt := Bounded
  same := fun hs h => ⟨h.1.congr hs, h.2.congr hs⟩
  fill_law := by
    rintro io p ok hl hfd ⟨ho, hp⟩
    rcases fill_behind hl hfd ho hp with
      ⟨io', h, hlost, hb⟩ | ⟨hok, hlen, io', h, hl', hb⟩ | ⟨hok, io', h, hun, hp', ho', hre, hw⟩
    · exact .inl ⟨io', h, hlost, fill_spoilt h hlost.live, hb⟩
    · exact .inr (.inl ⟨hok, hlen, io', h, fill_spoilt h hl', hb⟩)
    have hpos : 0 < IOBUFSIZE := by decide
    refine .inr (.inr ⟨hok, _, io', h, hun, hre, ⟨ho', ?_⟩, fun hz => ?_, Nat.min_le_left _ _,
      Nat.min_le_right _ _, hw.trans (List.take_eq_take_iff.mpr (by omega))⟩)
    · rw [List.drop_eq_drop_iff.mpr (show min (min IOBUFSIZE p.length) p.length =
        min IOBUFSIZE p.length by omega)]
      exact hp'
    · exact List.length_eq_zero_iff.mp (by omega)

theorem behind_iff : Behind ch io rest ok ↔ (armorFlow ch).Reads io rest ok := by
  constructor
  · rintro ⟨hl, hfd, ho, hcur, hsize, p, hp, hrest, hend⟩
    exact ⟨hl, hfd, hcur, hsize, p, ⟨ho, hp⟩, hrest, hend⟩
  · rintro ⟨hl, hfd, hcur, hsize, p, ⟨ho, hp⟩, hrest, hend⟩
    exact ⟨hl, hfd, ho, hcur, hsize, p, hp, hrest, hend⟩

theorem Flow.Failed.due {f : Flow ch} {io' : Io δ} (h : f.Failed io io' ok) : Due ch io ok :=
  fun hs => h.cause.resolve_left fun hlost => hlost.unsteady hs

/-- The loop of `bread`. -/
theorem Behind.breadLoop (n : Nat) (h : Behind ch io rest ok) :
    (∃ io', breadLoop n n [] io = some (none, io') ∧ Due ch io ok) ∨
    ∃ io', breadLoop n n [] io = some (some (rest.take n), io') ∧ Passes ch io io' ∧
      Behind ch io' (rest.drop n) ok ∧ (rest.length < n → ok = true) := by
  rcases (behind_iff.mp h).breadLoop n n [] (Nat.le_refl n) with
    ⟨io', hl, hfail⟩ | ⟨io', hl, hun, h', hshort⟩
  · exact .inl ⟨io', hl, hfail.due⟩
  · exact .inr ⟨io', hl, hun.passes, behind_iff.mpr h', hshort⟩

/-- A look at the next byte.  At the end of a refused text it answers
anything. -/
theorem Behind.peek (h : Behind ch io rest ok) (hp : probe io = some (true, io)) :
    (∃ io', bpeek io = some (.err, io') ∧ Due ch io ok) ∨
    (∃ a io', bpeek io = some (a, io') ∧ ok = false) ∨
    ∃ io', bpeek io = some (rest.head?.elim .eof .char, io') ∧ Passes ch io io' ∧
      Behind ch io' rest ok := by
  rcases (behind_iff.mp h).peek hp with
    ⟨io', hb, hfail, -⟩ | ⟨a, io', hb, hok, -⟩ | ⟨io', hb, hun, h', -⟩
  · exact .inl ⟨io', hb, hfail.due⟩
  · exact .inr (.inl ⟨a, io', hb, hok⟩)
  · exact .inr (.inr ⟨io', hb, hun.passes, behind_iff.mpr h'⟩)

/-! ## From the start -/

/-- An armored input, before its header line or behind it. -/
inductive Ahead (ch : Chan δ) (io : Io δ) : List UInt8 → Bool → Prop
  | fresh {text : List UInt8} : ch.live io.dev → io.ib.fd = ch.fi → io.ib.isarmor = .unchecked →
      io.ib.cur = 0 → io.ib.eof = false → io.ib.acur = 0 → io.ib.asize = 0 → io.ib.aendpos = 0 →
      ch.unread io.dev = armorfirst ++ text → Ahead ch io (unarmor text).1 (unarmor text).2
  | behind {rest : List UInt8} {ok : Bool} : Behind ch io rest ok → Ahead ch io rest ok

theorem Behind.probe (h : Behind ch io rest ok) : Agecrypt.probe io = some (true, io) := by
  rw [Agecrypt.probe, if_neg (by simp [h.opened.armor])]

/-- The first statement of `bread` and `bpeek`. -/
theorem Ahead.probe (h : Ahead ch io rest ok) :
    (∃ io', Agecrypt.probe io = some (false, io') ∧ Due ch io ok) ∨
    ∃ io', Agecrypt.probe io = some (true, io') ∧ Passes ch io io' ∧ Behind ch io' rest ok := by
  cases h with
  | behind h => exact .inr ⟨io, h.probe, .refl h.live, h⟩
  | @fresh text hl hfd hun hcur heof hac has hend hu =>
  rcases probe_armor hl hfd hun hu with ⟨io', h, hlost⟩ | ⟨buf, dev, h, hk, -, hu'⟩
  · exact .inl ⟨io', h, fun hs => absurd hs hlost.unsteady⟩
  have hpend : Pending io.ib text (unarmor text).1 (unarmor text).2 := by
    refine .inl ⟨hend, ?_, rfl⟩
    rw [hac, has, Bytes.window_self]
    rfl
  have hbounded : Bounded io.ib := by
    refine ⟨Nat.le_of_eq (hac.trans has.symm), ?_, ?_⟩
    · rw [has]
      exact Nat.zero_le _
    · rw [hend]
      exact Nat.zero_le _
  refine .inr ⟨_, h, ⟨hk.live, hk.steady, rfl⟩, hk.live, hfd,
    ⟨⟨hbounded.acur, hbounded.asize, hbounded.aendpos⟩, rfl⟩, Nat.le_of_eq hcur, Nat.zero_le _,
    (unarmor text).1, ?_, ?_, ?_⟩
  · show Pending _ (ch.unread dev) _ _
    rw [hu']
    exact hpend
  · show _ = buf.window io.ib.cur 0 ++ _
    rw [hcur, Bytes.window_self]
    rfl
  · intro he
    exact absurd (heof.symm.trans he) (by simp)

/-- `bread` delivers the next bytes, or it reports an error that is due. -/
theorem Ahead.bread (h : Ahead ch io rest ok) (n : Nat) :
    (∃ io', Agecrypt.bread n io = some (none, io') ∧ Due ch io ok) ∨
    ∃ io', Agecrypt.bread n io = some (some (rest.take n), io') ∧ Passes ch io io' ∧
      Behind ch io' (rest.drop n) ok ∧ (rest.length < n → ok = true) := by
  unfold Agecrypt.bread
  rcases h.probe with ⟨io₁, hp, hdue⟩ | ⟨io₁, hp, hpass, h₁⟩
  · exact .inl ⟨io₁, by rw [hp]; rfl, hdue⟩
  rw [hp]
  simp only [Option.bind_eq_bind, Option.bind_some, if_true]
  rcases h₁.breadLoop n with ⟨io₂, hl, hdue⟩ | ⟨io₂, hl, hpass₂, h₂, hshort⟩
  · exact .inl ⟨io₂, hl, hpass.due hdue⟩
  · exact .inr ⟨io₂, hl, hpass.trans hpass₂, h₂, hshort⟩

/-- `bpeek` answers the next byte, or it reports an error that is due. -/
theorem Ahead.bpeek (h : Ahead ch io rest ok) :
    (∃ io', Agecrypt.bpeek io = some (.err, io') ∧ Due ch io ok) ∨
    (∃ a io', Agecrypt.bpeek io = some (a, io') ∧ ok = false) ∨
    ∃ io', Agecrypt.bpeek io = some (rest.head?.elim .eof .char, io') ∧ Passes ch io io' ∧
      Behind ch io' rest ok := by
  rcases h.probe with ⟨io₁, hp, hdue⟩ | ⟨io₁, hp, hpass, h₁⟩
  · refine .inl ⟨io₁, ?_, hdue⟩
    unfold Agecrypt.bpeek
    rw [hp]
    rfl
  have heq : Agecrypt.bpeek io = Agecrypt.bpeek io₁ := by
    unfold Agecrypt.bpeek
    rw [hp, h₁.probe]
  rw [heq]
  rcases h₁.peek h₁.probe with ⟨io₂, hb, hdue⟩ | ⟨a, io₂, hb, hok⟩ | ⟨io₂, hb, hpass₂, h₂⟩
  · exact .inl ⟨io₂, hb, hpass.due hdue⟩
  · exact .inr (.inl ⟨a, io₂, hb, hok⟩)
  · exact .inr (.inr ⟨io₂, hb, hpass.trans hpass₂, h₂⟩)

/-! ## Sequences of calls -/

theorem readCalls_cons {c : ReadCall} {a : ReadAns} {io io₁ : Io δ} {calls : List ReadCall}
    (h : readCall c io = some (a, io₁)) :
    readCalls (c :: calls) io = (readCalls calls io₁).map fun x => (a :: x.1, x.2) := by
  rw [readCalls, h]
  simp only [Option.bind_eq_bind, Option.bind_some]
  cases readCalls calls io₁ with
  | none => rfl
  | some x => rfl

theorem readCall_bread {n : Nat} {r : Option (List UInt8)} {io io₁ : Io δ}
    (h : bread n io = some (r, io₁)) : readCall (.bread n) io = some (.bread r, io₁) := by
  rw [readCall, h, Option.map_some]

theorem readCall_bpeek {r : Peek} {io io₁ : Io δ} (h : bpeek io = some (r, io₁)) :
    readCall .bpeek io = some (.bpeek r, io₁) := by
  rw [readCall, h, Option.map_some]

/-- Calls on a text that is accepted answer its bytes. -/
theorem Ahead.readCalls (calls : List ReadCall) : ∀ {io : Io δ} {rest : List UInt8},
    Ahead ch io rest true → ch.steady io.dev →
    ∃ io', Agecrypt.readCalls calls io = some ((answers calls rest).1, io') := by
  induction calls with
  | nil => exact fun {io rest} _ _ => ⟨io, rfl⟩
  | cons c calls ih =>
    intro io rest h hst
    have hbad : ¬ Due ch io true := fun hd => by cases hd hst
    cases c with
    | bread n =>
      rcases h.bread n with ⟨-, -, hdue⟩ | ⟨io₁, hb, hpass, h₁, -⟩
      · exact absurd hdue hbad
      obtain ⟨io', hcalls⟩ := ih (.behind h₁) (hpass.steady hst)
      exact ⟨io', by rw [readCalls_cons (readCall_bread hb), hcalls]; rfl⟩
    | bpeek =>
      rcases h.bpeek with ⟨-, -, hdue⟩ | ⟨-, -, -, hok⟩ | ⟨io₁, hb, hpass, h₁⟩
      · exact absurd hdue hbad
      · cases hok
      obtain ⟨io', hcalls⟩ := ih (.behind h₁) (hpass.steady hst)
      exact ⟨io', by rw [readCalls_cons (readCall_bpeek hb), hcalls]; rfl⟩

end Agecrypt
