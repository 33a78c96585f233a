import Agecrypt.Agec.Shadow

/-!
# The read buffer over armored text

`Pending` says which bytes an `Ibuf` that is behind the armor header line
has still to decode, and whether the text that it has not read is accepted.
A refill delivers the next of these bytes; at the end of a text that is not
accepted it reports a format error.

For an accepted text this is a `Feed` over any descriptors, by
`fill_shadows`: the reader then delivers the `Src` of the decoded bytes.
-/

namespace Agecrypt

/-- The bytes still to be delivered, and whether the end of the text will be
accepted. -/
def Pending (ib : Ibuf) (unread p : List UInt8) (ok : Bool) : Prop :=
  (ib.aendpos = 0 ∧ p = ib.abuf.window ib.acur ib.asize ++ (unarmor unread).1 ∧
      ok = (unarmor unread).2) ∨
    (ib.aendpos = armorlast.length ∧ unread = [] ∧ p = ib.abuf.window ib.acur ib.asize ∧
      ok = true)

/-! ## Over the ideal system -/

/-- The state after a block that decodes to `out`. -/
def afterBlock (t : Io Tape) (abuf : Bytes IOABUFREADSIZE) (out : List UInt8) (last : Bool) :
    Io Tape :=
  { t with ib := { t.ib with
      abuf, asize := out.length, aendpos := if last then armorlast.length else 0 } }

/-- What `aread` does with a block, by `decodeBlock`. -/
theorem areadBlock_tape (raw : List UInt8) {t : Io Tape} (ha : t.ib.aendpos = 0)
    (hraw : raw.length ≤ IOABUFREADSIZE) :
    (decodeBlock raw (!t.dev.inp.isEmpty) = none ∧
      ∃ t', areadBlock raw t = some (some .fmterr, t')) ∨
    ∃ out last abuf, decodeBlock raw (!t.dev.inp.isEmpty) = some (out, last) ∧
      areadBlock raw t = some (none, afterBlock t abuf out last) ∧
      abuf.window 0 out.length = out ∧ (last = true → t.dev.inp = []) := by
  have hstore : ∀ (txt out : List UInt8), txt.length ≤ raw.length →
      base64decode txt true = some out →
      ∃ abuf, t.ib.abuf.store 0 out = some abuf ∧ abuf.window 0 out.length = out := by
    intro txt out htxt hdec
    have hout := length_base64decode hdec
    obtain ⟨abuf, habuf⟩ := t.ib.abuf.store_isSome 0 out (by omega)
    exact ⟨abuf, habuf, by simpa using Bytes.window_store_zero habuf (Nat.zero_le _)⟩
  unfold areadBlock decodeBlock
  rw [ha]
  rcases endcheck_zero (fun _ => 0) raw with ⟨body, rfl, h⟩ | ⟨-, ⟨-, -, h⟩ | ⟨k, -, h, -⟩⟩
  · have htake : (body ++ armorlast).take ((body ++ armorlast).length - armorlast.length) =
        body := by
      rw [List.length_append, Nat.add_sub_cancel, List.take_left]
    rw [h]
    simp only [htake]
    rcases hdec : base64decode body true with _ | out
    · exact .inl ⟨by simp, _, rfl⟩
    obtain ⟨abuf, habuf, hwin⟩ := hstore body out (by rw [List.length_append]; omega) hdec
    rcases hinp : t.dev.inp with _ | ⟨c, cs⟩
    · refine .inr ⟨out, true, abuf, by simp, ?_, hwin, fun _ => rfl⟩
      obtain ⟨ib, ob, ebuf, data, inp, errno⟩ := t
      obtain rfl : inp = [] := hinp
      simp [habuf, Descr.ageread, afterBlock]
    · refine .inl ⟨by simp, ?_⟩
      simp [habuf, Descr.ageread, hinp]
  · rw [h]
    simp only [Nat.sub_zero, List.take_length]
    rcases hdec : base64decode raw true with _ | out
    · exact .inl ⟨by simp, _, rfl⟩
    obtain ⟨abuf, habuf, hwin⟩ := hstore raw out (Nat.le_refl _) hdec
    exact .inr ⟨out, false, abuf, by simp, by simp [habuf, afterBlock], hwin, by simp⟩
  · rw [h]
    exact .inl ⟨by simp, _, rfl⟩

/-- `aread` changes the buffers and what is unread. -/
structure Advanced (t t' : Io Tape) : Prop where
  ib : t'.ib = { t.ib with
    acur := t'.ib.acur, asize := t'.ib.asize, aendpos := t'.ib.aendpos,
    buf := t'.ib.buf, abuf := t'.ib.abuf }
  ob : t'.ob = t.ob
  ebuf : t'.ebuf = t.ebuf
  data : t'.data = t.data
  errno : t'.dev.errno = t.dev.errno

namespace Advanced

theorem refl (t : Io Tape) : Advanced t t := ⟨rfl, rfl, rfl, rfl, rfl⟩

theorem trans {t₁ t₂ t₃ : Io Tape} (h : Advanced t₁ t₂) (h' : Advanced t₂ t₃) :
    Advanced t₁ t₃ :=
  ⟨by rw [h'.ib, h.ib], h'.ob.trans h.ob, h'.ebuf.trans h.ebuf, h'.data.trans h.data,
    h'.errno.trans h.errno⟩

theorem refilled {t t' : Io Tape} (h : Advanced t t') : Refilled t.ib t'.ib := by
  constructor <;> rw [h.ib]

theorem isarmor {t t' : Io Tape} (h : Advanced t t') : t'.ib.isarmor = t.ib.isarmor :=
  h.refilled.isarmor

end Advanced

/-- The refill of an empty armor buffer. -/
theorem areadRefill_tape (off : Nat) {t : Io Tape} {p : List UInt8} {ok : Bool}
    (ho : Opened t.ib) (hac : t.ib.acur = 0) (has : t.ib.asize = 0)
    (hp : Pending t.ib t.dev.inp p ok) :
    (p = [] ∧ ok = false ∧ ∃ t', areadRefill off t = some (some .fmterr, t')) ∨
    (∃ t', areadRefill off t = some (some (.got off), t') ∧ p = [] ∧ ok = true ∧
      Pending t'.ib t'.dev.inp [] true ∧ Opened t'.ib ∧ Advanced t t' ∧
      t'.ib.buf = t.ib.buf) ∨
    ∃ t', areadRefill off t = some (none, t') ∧ Pending t'.ib t'.dev.inp p ok ∧
      Opened t'.ib ∧ Advanced t t' ∧ t'.ib.buf = t.ib.buf ∧ t.ib.aendpos = 0 ∧
      (t'.ib.acur < t'.ib.asize ∨ t'.ib.aendpos = armorlast.length) := by
  have hfin : readEnd IOABUFREADSIZE t.dev.inp ≠ .fail := by
    unfold readEnd
    split <;> simp
  have hwin0 : t.ib.abuf.window t.ib.acur t.ib.asize = [] := by
    rw [hac, has, Bytes.window_self]
  rw [areadRefill, tape_readall]
  simp only
  rw [if_neg hfin]
  rcases hp with ⟨hend, rfl, rfl⟩ | ⟨hend, hu, rfl, rfl⟩
  · rw [hwin0, List.nil_append]
    by_cases hnil : t.dev.inp = []
    · rw [hnil, unarmor_nil]
      exact .inl ⟨rfl, rfl, by simp [hend]⟩
    have hpos : t.dev.inp.length ≠ 0 := fun h0 => hnil (List.length_eq_zero_iff.mp h0)
    have hraw : (t.dev.inp.take IOABUFREADSIZE).length = min (65 * 126) t.dev.inp.length := by
      rw [List.length_take, IOABUFREADSIZE]
    rw [if_neg (by omega), unarmor_block hnil]
    rcases areadBlock_tape (t.dev.inp.take IOABUFREADSIZE)
        (t := { t with dev := { t.dev with inp := t.dev.inp.drop IOABUFREADSIZE } }) hend
        (by rw [IOABUFREADSIZE] at hraw ⊢; omega) with
      ⟨hdec, t', h⟩ | ⟨out, last, abuf, hdec, h, hwin, hlast⟩
    · rw [hdec]
      exact .inl ⟨rfl, rfl, t', h⟩
    · have hout := length_decodeBlock hdec
      refine .inr (.inr ⟨_, h, ?_, ⟨⟨?_, ?_, ?_⟩, ho.armor⟩, ⟨rfl, rfl, rfl, rfl, rfl⟩, rfl,
        hend, ?_⟩)
      · rw [hdec]
        cases last with
        | true =>
          refine .inr ⟨rfl, hlast rfl, ?_, rfl⟩
          simp only [afterBlock, hac]
          exact hwin.symm
        | false =>
          refine .inl ⟨rfl, ?_, rfl⟩
          simp only [afterBlock, hac, blockThen, hwin]
      · simp [afterBlock, hac]
      · simp only [afterBlock]
        rw [hraw] at hout
        rw [IOABUFREADSIZE]
        omega
      · cases last <;> simp [afterBlock]
      · cases last with
        | true => exact .inr rfl
        | false =>
          have hpos := List.length_pos_iff.mpr (decodeBlock_ne_nil hdec)
          exact .inl (by simpa [afterBlock, hac] using hpos)
  · refine .inr (.inl ⟨{ t with dev := { t.dev with inp := t.dev.inp.drop IOABUFREADSIZE } },
      ?_, hwin0, rfl, .inr ⟨hend, ?_, ?_, rfl⟩, ho, ⟨rfl, rfl, rfl, rfl, rfl⟩, rfl⟩)
    · rw [if_pos (by simp [hu]), if_neg (by rw [hend]; decide)]
    · simp [hu]
    · exact hwin0.symm

/-- Bytes in the armor buffer, or the return of `aread`. -/
theorem areadFetch_tape (off : Nat) {t : Io Tape} {p : List UInt8} {ok : Bool}
    (ho : Opened t.ib) (hp : Pending t.ib t.dev.inp p ok) :
    (p = [] ∧ ok = false ∧ ∃ t', areadFetch off t = some (some .fmterr, t')) ∨
    (∃ t', areadFetch off t = some (some (.got off), t') ∧ p = [] ∧ ok = true ∧
      Pending t'.ib t'.dev.inp [] true ∧ Opened t'.ib ∧ Advanced t t' ∧
      t'.ib.buf = t.ib.buf) ∨
    ∃ t', areadFetch off t = some (none, t') ∧ Pending t'.ib t'.dev.inp p ok ∧
      Opened t'.ib ∧ Advanced t t' ∧ t'.ib.buf = t.ib.buf ∧
      ((t'.ib.acur < t'.ib.asize ∧ (t.ib.aendpos ≠ 0 → t'.ib.aendpos ≠ 0)) ∨
        (t.ib.aendpos = 0 ∧ t'.ib.aendpos ≠ 0)) := by
  have hcur := ho.acur
  simp only [areadFetch]
  by_cases hac : t.ib.acur = t.ib.asize
  · rw [if_pos hac, if_pos rfl]
    let t₁ : Io Tape := { t with ib := { t.ib with acur := 0, asize := 0 } }
    have ho₁ : Opened t₁.ib := ⟨⟨Nat.le_refl 0, Nat.zero_le _, ho.aendpos⟩, ho.armor⟩
    have hp₁ : Pending t₁.ib t₁.dev.inp p ok := by
      have hw : t.ib.abuf.window t.ib.acur t.ib.asize = t.ib.abuf.window 0 0 := by
        rw [hac, Bytes.window_self, Bytes.window_self]
      unfold Pending at hp
      rw [hw] at hp
      exact hp
    have ha₁ : Advanced t t₁ := ⟨rfl, rfl, rfl, rfl, rfl⟩
    rcases areadRefill_tape off ho₁ rfl rfl hp₁ with
      hbad | ⟨t', h, hnil, hok, hp', ho', ha', hb'⟩ | ⟨t', h, hp', ho', ha', hb', hend, hready⟩
    · exact .inl hbad
    · exact .inr (.inl ⟨t', h, hnil, hok, hp', ho', ha₁.trans ha', hb'⟩)
    · have hend' : t.ib.aendpos = 0 := hend
      refine .inr (.inr ⟨t', h, hp', ho', ha₁.trans ha', hb', ?_⟩)
      rcases hready with hlt | hlast
      · exact .inl ⟨hlt, fun hne => absurd hend' hne⟩
      · exact .inr ⟨hend', by rw [hlast]; decide⟩
  · rw [if_neg hac, if_neg (by omega)]
    exact .inr (.inr ⟨t, rfl, hp, ho, .refl t, rfl, .inl ⟨by omega, id⟩⟩)

/-- Taking `c` bytes from the armor buffer. -/
private theorem Pending.take {ib : Ibuf} {u p : List UInt8} {ok : Bool} {c : Nat}
    (hp : Pending ib u p ok) (ho : Opened ib) (hc : ib.acur + c ≤ ib.asize) :
    p.take c = ib.abuf.window ib.acur (ib.acur + c) ∧ c ≤ p.length ∧
      ∀ buf, Pending { ib with buf, acur := ib.acur + c } u (p.drop c) ok := by
  have hsize := ho.asize
  have hlen : (ib.abuf.window ib.acur (ib.acur + c)).length = c := by
    rw [Bytes.length_window _ (by omega)]
    omega
  have hsplit := ib.abuf.window_append (i := ib.acur) (j := ib.acur + c) (k := ib.asize)
    (by omega) hc
  have hwin : ∀ rest, (ib.abuf.window ib.acur ib.asize ++ rest).take c =
        ib.abuf.window ib.acur (ib.acur + c) ∧
      c ≤ (ib.abuf.window ib.acur ib.asize ++ rest).length ∧
      (ib.abuf.window ib.acur ib.asize ++ rest).drop c =
        ib.abuf.window (ib.acur + c) ib.asize ++ rest := by
    intro rest
    rw [← hsplit, List.append_assoc]
    refine ⟨List.take_left' hlen, ?_, List.drop_left' hlen⟩
    rw [List.length_append, hlen]
    omega
  rcases hp with ⟨hend, rfl, rfl⟩ | ⟨hend, rfl, rfl, rfl⟩
  · obtain ⟨ht, hl, hd⟩ := hwin (unarmor u).1
    exact ⟨ht, hl, fun _ => .inl ⟨hend, hd, rfl⟩⟩
  · obtain ⟨ht, hl, hd⟩ := hwin []
    rw [List.append_nil] at ht hl hd
    exact ⟨ht, hl, fun _ => .inr ⟨hend, rfl, by rw [hd, List.append_nil], rfl⟩⟩

/-- The loop of `aread`.  Each round delivers a byte, but for one round on a
block that holds the ending line only. -/
theorem areadLoop_tape (fuel : Nat) : ∀ (n off : Nat) {t : Io Tape} {p : List UInt8} {ok : Bool},
    Opened t.ib → Pending t.ib t.dev.inp p ok → off + n ≤ IOBUFSIZE →
    n + (if t.ib.aendpos = 0 then 1 else 0) ≤ fuel →
    (ok = false ∧ p.length < n ∧ ∃ t', areadLoop fuel n off t = some (.fmterr, t')) ∨
    ((ok = true ∨ n ≤ p.length) ∧
      ∃ t', areadLoop fuel n off t = some (.got (off + min n p.length), t') ∧
        Pending t'.ib t'.dev.inp (p.drop n) ok ∧ Opened t'.ib ∧ Advanced t t' ∧
        t'.ib.buf.window 0 (off + min n p.length) = t.ib.buf.window 0 off ++ p.take n) := by
  induction fuel with
  | zero =>
    intro n off t p ok ho hp hoff hfuel
    obtain rfl : n = 0 := by omega
    exact .inr ⟨.inr (Nat.zero_le _), t, by simp [areadLoop], by simpa using hp, ho, .refl t,
      by simp⟩
  | succ fuel ih =>
    intro n off t p ok ho hp hoff hfuel
    rcases n with _ | n
    · exact .inr ⟨.inr (Nat.zero_le _), t, by simp [areadLoop], by simpa using hp, ho, .refl t,
        by simp⟩
    rw [areadLoop]
    rcases areadFetch_tape off ho hp with
      ⟨rfl, hok, t', h⟩ | ⟨t', h, rfl, rfl, hp', ho', ha', hb'⟩ |
      ⟨t₁, h, hp₁, ho₁, ha₁, hb₁, hready⟩
    · exact .inl ⟨hok, by simp, t', by rw [h]; rfl⟩
    · exact .inr ⟨.inl rfl, t', by rw [h]; rfl, hp', ho', ha', by simp [hb']⟩
    rw [h]
    simp only [Option.bind_eq_bind, Option.bind_some]
    obtain ⟨c, hc⟩ : ∃ c, c = min (t₁.ib.asize - t₁.ib.acur) (n + 1) := ⟨_, rfl⟩
    have hcur := ho₁.acur
    have hsize := ho₁.asize
    obtain ⟨htake, hcp, hp₂⟩ := hp₁.take ho₁ (c := c) (by omega)
    have htlen : (p.take c).length = c := by
      rw [List.length_take]
      omega
    rw [← hc, Bytes.load_eq _ (by omega), ← htake]
    simp only [Option.bind_some]
    obtain ⟨buf, hbuf⟩ := t₁.ib.buf.store_isSome off (p.take c) (by omega)
    have hwin := Bytes.window_store_append hbuf (Nat.zero_le off)
    rw [htlen, hb₁] at hwin
    rw [hbuf]
    simp only [Option.bind_some]
    let t₂ : Io Tape := { t₁ with ib := { t₁.ib with buf, acur := t₁.ib.acur + c } }
    have ho₂ : Opened t₂.ib :=
      ⟨⟨by simp only [t₂]; omega, ho₁.asize, ho₁.aendpos⟩, ho₁.armor⟩
    have ha₂ : Advanced t t₂ := ha₁.trans ⟨rfl, rfl, rfl, rfl, rfl⟩
    have hfuel₂ : n + 1 - c + (if t₁.ib.aendpos = 0 then 1 else 0) ≤ fuel := by
      rcases hready with ⟨hlt, hend⟩ | ⟨hend, hend'⟩
      · split
        · rename_i h0
          rw [if_pos (by by_contra hne; exact hend hne h0)] at hfuel
          omega
        · omega
      · rw [if_pos hend] at hfuel
        rw [if_neg hend']
        omega
    have hmin : off + c + min (n + 1 - c) (p.drop c).length = off + min (n + 1) p.length := by
      rw [List.length_drop]
      omega
    have hdd : (p.drop c).drop (n + 1 - c) = p.drop (n + 1) := by
      rw [List.drop_drop]
      congr 1
      omega
    rcases ih (n + 1 - c) (off + c) (t := t₂) ho₂ (hp₂ buf) (by omega) hfuel₂ with
      ⟨hok, hlt, t', h'⟩ | ⟨hok, t', h', hp', ho', ha', hw'⟩
    · exact .inl ⟨hok, by rw [List.length_drop] at hlt; omega, t', h'⟩
    · rw [hmin] at h' hw'
      rw [hdd] at hp'
      refine .inr ⟨hok.imp_right (fun hle => by rw [List.length_drop] at hle; omega), t', h', hp',
        ho', ha₂.trans ha', ?_⟩
      have htt : p.take (n + 1) = p.take c ++ (p.drop c).take (n + 1 - c) := by
        rw [← List.take_add]
        congr 1
        omega
      rw [hw', htt, ← List.append_assoc, ← hwin]

/-- A refill of the read buffer. -/
theorem fill_tape {t : Io Tape} {p : List UInt8} {ok : Bool} (ho : Opened t.ib)
    (hp : Pending t.ib t.dev.inp p ok) :
    (ok = false ∧ p.length < IOBUFSIZE ∧ ∃ t', fill t = some (.fmterr, t')) ∨
    ((ok = true ∨ IOBUFSIZE ≤ p.length) ∧
      ∃ t', fill t = some (.got (min IOBUFSIZE p.length), t') ∧
        Pending t'.ib t'.dev.inp (p.drop IOBUFSIZE) ok ∧ Opened t'.ib ∧ Advanced t t' ∧
        t'.ib.buf.window 0 (min IOBUFSIZE p.length) = p.take IOBUFSIZE) := by
  have harm : t.ib.isarmor.holds = true := by simp [ho.armor, Armored.holds]
  rw [fill, if_pos harm, aread]
  have h := areadLoop_tape (IOBUFSIZE + 2) IOBUFSIZE 0 ho hp (by omega) (by split <;> omega)
  simpa using h

/-! ## Over any descriptors -/

section

variable {δ : Type} [Descr δ] {ch : Chan δ}

/-- A refill behind the armor header line: a read failed, or the refill ends
at a format error, or it delivers the next bytes. -/
theorem fill_armor {io : Io δ} {p : List UInt8} {ok : Bool} (hl : ch.Sound io.dev)
    (hfd : io.ib.fd = ch.fi) (ho : Opened io.ib) (hp : Pending io.ib (ch.unread io.dev) p ok) :
    (∃ io', fill io = some (.ioerr, io') ∧ ch.ReadLost io.dev io'.dev ∧ Bounded io'.ib) ∨
    (ok = false ∧ p.length < IOBUFSIZE ∧
      ∃ io', fill io = some (.fmterr, io') ∧ Quiet ch io io' ∧ Opened io'.ib) ∨
    ((ok = true ∨ IOBUFSIZE ≤ p.length) ∧
      ∃ io', fill io = some (.got (min IOBUFSIZE p.length), io') ∧ Frame ch io io' ∧
        Pending io'.ib (ch.unread io'.dev) (p.drop IOBUFSIZE) ok ∧ Opened io'.ib ∧
        Refilled io.ib io'.ib ∧
        io'.ib.buf.window 0 (min IOBUFSIZE p.length) = p.take IOBUFSIZE) := by
  have ho' : Opened (erase ch io).ib := ⟨⟨ho.acur, ho.asize, ho.aendpos⟩, ho.armor⟩
  have hp' : Pending (erase ch io).ib (erase ch io).dev.inp p ok := hp
  rcases fill_shadows hl hfd ho with hlost | ⟨hy, hx⟩
  · exact .inl hlost
  refine .inr ?_
  rcases fill_tape ho' hp' with ⟨hok, hlt, t', h⟩ | ⟨hok, t', h, hpt, hot, hat, hw⟩
  · rw [hy] at h
    obtain ⟨⟨r, io'⟩, hio, he⟩ := Option.map_eq_some_iff.mp h
    obtain ⟨rfl, rfl⟩ := Prod.mk.inj he
    exact .inl ⟨hok, hlt, io', hio, hx _ _ hio⟩
  · rw [hy] at h
    obtain ⟨⟨r, io'⟩, hio, he⟩ := Option.map_eq_some_iff.mp h
    obtain ⟨rfl, rfl⟩ := Prod.mk.inj he
    obtain ⟨hq, hopen⟩ := hx _ _ hio
    have hre := hat.refilled
    exact .inr ⟨hok, io', hio, ⟨hq.kept.kept, hq.accepted, hq.fd, hq.ob, hat.ebuf, hq.data⟩,
      hpt, hopen,
      ⟨hre.cur, hre.size, hre.eof, hre.isarmor, hre.recording, hre.recfail, hre.record⟩, hw⟩

/-- The probe of an armored input. -/
theorem probe_armor {io : Io δ} {text : List UInt8} (hl : ch.live io.dev)
    (hfd : io.ib.fd = ch.fi) (ha : io.ib.isarmor = .unchecked)
    (hu : ch.unread io.dev = armorfirst ++ text) :
    (∃ io', probe io = some (false, io') ∧ ch.ReadLost io.dev io'.dev) ∨
    ∃ buf dev, probe io =
        some (true, { io with ib := { io.ib with buf, size := 0, isarmor := .yes }, dev }) ∧
      ch.Kept io.dev dev ∧ ch.accepted dev = ch.accepted io.dev ∧ ch.unread dev = text := by
  obtain ⟨bs, fin, d', h, hacc, hcases⟩ := ch.readall_spec hl armorfirst.length
  have hb35 : bs.length ≤ 35 := by
    rcases hcases with ⟨-, -, hlen, -⟩ | ⟨-, rfl, -⟩
    · exact hlen
    · rw [List.length_take, length_armorfirst]
      omega
  obtain ⟨buf, hbuf⟩ := io.ib.buf.store_isSome 0 bs (by rw [IOBUFSIZE]; omega)
  rw [probe, if_pos ha, isarmor, hfd, h]
  simp only [Option.bind_eq_bind, Option.bind_some, hbuf]
  rcases hcases with ⟨rfl, hlost, -⟩ | ⟨hk, rfl, hun, rfl⟩
  · exact .inl ⟨_, rfl, hlost⟩
  have hfull : readEnd armorfirst.length (ch.unread io.dev) = .full := by
    rw [readEnd, hu, if_pos (by rw [List.length_append]; omega)]
  have htake : (ch.unread io.dev).take armorfirst.length = armorfirst := by
    rw [hu, List.take_left]
  rw [hu, List.drop_left] at hun
  refine .inr ⟨buf, d', ?_, hk, hacc, hun⟩
  simp [hfull, htake]

variable (ch) in
/-- An armored input whose text is accepted feeds the decoded bytes. -/
def armorFeed : Feed ch where
  ready := ch.Sound
  live := fun h => h.live
  sound := id
  next := fun h hl hal => ⟨hl, hal h.allocates⟩
  holds ib u p := Opened ib ∧ Pending ib u p true
  start ib u s := (Bounded ib ∧ ib.isarmor = .unchecked ∧ ib.cur = 0 ∧ ib.eof = false) ∧
    (ib.acur = 0 ∧ ib.asize = 0 ∧ ib.aendpos = 0) ∧
    ∃ text, u = armorfirst ++ text ∧ (unarmor text).2 = true ∧ s = Src.armored (unarmor text).1
  same := by
    rintro ib ib' u p hs ⟨ho, hp⟩
    refine ⟨⟨⟨?_, ?_, ?_⟩, hs.isarmor.trans ho.armor⟩, ?_⟩
    · rw [hs.acur, hs.asize]
      exact ho.acur
    · rw [hs.asize]
      exact ho.asize
    · rw [hs.aendpos]
      exact ho.aendpos
    · unfold Pending
      rw [hs.acur, hs.asize, hs.aendpos, hs.abuf]
      exact hp
  start_some := by
    rintro ib u s ⟨-, -, text, -, -, rfl⟩
    simp [Src.armored]
  start_eof := by
    rintro ib u s ⟨⟨-, -, -, heof⟩, -, text, -, -, rfl⟩
    exact heof.symm
  opened := by
    rintro ib u p ⟨ho, -⟩
    simp [ho.armor]
  fill_law := by
    rintro io p hl hfd ⟨ho, hp⟩
    rcases fill_armor hl hfd ho hp with
      ⟨io', h, hlost, -⟩ | ⟨hok, -⟩ | ⟨-, io', h, hfr, hp', ho', hre, hw⟩
    · exact .inl ⟨io', h, hlost⟩
    · cases hok
    have hlen : (p.take IOBUFSIZE).length = min IOBUFSIZE p.length := List.length_take
    refine .inr ⟨p.take IOBUFSIZE, p.drop IOBUFSIZE, io', by rw [hlen]; exact h, hfr, hre,
      ⟨ho', hp'⟩, (List.take_append_drop _ _).symm, ?_, by omega, by rw [hlen]; exact hw⟩
    intro hnil
    have hpos : 0 < IOBUFSIZE := by decide
    rw [hnil, List.length_nil] at hlen
    exact List.length_eq_zero_iff.mp (by omega)
  probe_law := by
    rintro io s hl hfd ⟨⟨hb, hun, hcur, heof⟩, ⟨hac, has, hend⟩, text, hu, hok, rfl⟩
    rcases probe_armor hl.live hfd hun hu with hlost | ⟨buf, d', h, hk, hacc, hu'⟩
    · exact .inl hlost
    refine .inr ⟨_, (unarmor text).1, h, ⟨hk, hacc, rfl, rfl, rfl, rfl⟩,
      ⟨⟨⟨hb.acur, hb.asize, hb.aendpos⟩, rfl⟩, .inl ⟨hend, ?_, ?_⟩⟩, by simp [hcur], by simp, ?_,
      by simpa [Src.probe, Src.armored] using heof.symm, by simp [heof]⟩
    · simp only [hac, has, Bytes.window_self, List.nil_append, hu']
    · rw [hu', hok]
    · simp only [hcur, Bytes.window_self, List.nil_append, Src.armored]

end

end Agecrypt
