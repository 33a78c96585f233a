import Agecrypt.Agec.Agecore
import Agecrypt.Agec.Headers
import Agecrypt.Agec.Recording
import Agecrypt.Agec.Tamper

/-!
# The bytes under the header MAC

While memory lasts, everything that has been read is in the record or in the
buffer behind it.  `recstop` returns a pointer to it, and the parser then
reads the line of the MAC before these bytes are looked at.  A pointer into
the record is safe from that.  A pointer into the read buffer is safe as long
as the line of the MAC lies in the same buffer: a refill would put the bytes
behind it in the place of the header.

`Reading` is the state while the header is read, `Pinned` the one behind
`recstop`.
-/

namespace Agecrypt

open ProgE

variable {δ : Type} [Descr δ] {ch : Chan δ}

/-! ## The record grows -/

/-- The capacities that the doubling reaches. -/
def Sized (cap : Nat) : Prop := cap = 0 ∨ ∃ i, 9 ≤ i ∧ i ≤ 63 ∧ cap = 2 ^ i

/-- Nothing of the record is lost. -/
structure Healthy (ib : Ibuf) : Prop where
  recfail : ib.recfail = none
  sized : Sized ib.record.capacity
  fits : ib.record.buf.length ≤ ib.record.capacity

theorem growCap_sized {need : Nat} (hneed : need ≤ 2 ^ 63) (fuel : Nat) : ∀ {i : Nat}, 9 ≤ i →
    i ≤ 63 → 64 ≤ fuel + i → ∃ j, 9 ≤ j ∧ j ≤ 63 ∧ growCap need fuel (2 ^ i) = some (2 ^ j) := by
  induction fuel with
  | zero =>
    intro i _ hi hfuel
    omega
  | succ fuel ih =>
    intro i hlo hi hfuel
    rw [growCap]
    by_cases hgt : need > 2 ^ i
    · -- there is a larger power of two below the limit of `usize`
      have hlt : i < 63 := by
        by_contra hge
        have h63 : i = 63 := by omega
        rw [h63] at hgt
        omega
      have hpow : 2 ^ i * 2 = 2 ^ (i + 1) := (Nat.pow_succ ..).symm
      have hle : 2 ^ (i + 1) ≤ 2 ^ 63 := Nat.pow_le_pow_right (by decide) (by omega)
      have hmod : 2 ^ i * 2 % USIZE = 2 ^ (i + 1) := by
        rw [hpow, USIZE]
        apply Nat.mod_eq_of_lt
        omega
      rw [if_pos hgt, hmod]
      simp only
      rw [if_neg (by omega)]
      exact ih (by omega) (by omega) (by omega)
    · rw [if_neg hgt]
      exact ⟨i, hlo, hi, rfl⟩

section Append

variable {io : Io δ}

theorem recgrow_healthy (src : List UInt8) (hl : ch.live io.dev) (hal : ch.allocates io.dev)
    (h : Healthy io.ib) (hroom : src = [] ∨ io.ib.record.capacity ≠ 0)
    (hlen : io.ib.record.buf.length + src.length ≤ 2 ^ 63) :
    Healthy (recgrow src io).ib ∧ (recgrow src io).ib.record.buf = io.ib.record.buf ++ src ∧
      (io.ib.record.capacity ≠ 0 → (recgrow src io).ib.record.capacity ≠ 0) := by
  have hfits := h.fits
  unfold recgrow
  simp only
  split
  · rename_i hneed
    rcases h.sized with hzero | ⟨i, hlo, hi, hcap⟩
    · rcases hroom with rfl | hne
      · simp only [List.length_nil] at hneed
        omega
      · exact absurd hzero hne
    obtain ⟨j, hlo', hj, hgrow⟩ := growCap_sized hlen 64 hlo hi (by omega)
    rw [hcap, hgrow]
    simp only
    rcases halloc : Descr.alloc (2 ^ j) io.dev with ⟨b, dev⟩
    obtain ⟨hb, -⟩ := ch.alloc_ok hl halloc
    obtain rfl := hb hal
    have hle := le_growCap 64 hgrow
    have hpos : 0 < 2 ^ j := Nat.pow_pos (by decide)
    simp only
    refine ⟨⟨h.recfail, .inr ⟨j, hlo', hj, rfl⟩, ?_⟩, trivial, fun _ => by omega⟩
    rw [List.length_append]
    exact hle
  · rename_i hroom'
    refine ⟨⟨h.recfail, h.sized, ?_⟩, rfl, id⟩
    show (io.ib.record.buf ++ src).length ≤ io.ib.record.capacity
    rw [List.length_append]
    omega

/-- With memory, `recappend` appends. -/
theorem recappend_healthy (src : List UInt8) (hl : ch.live io.dev) (hal : ch.allocates io.dev)
    (h : Healthy io.ib) (hlen : io.ib.record.buf.length + src.length ≤ 2 ^ 63) :
    Healthy (recappend src io).ib ∧ (recappend src io).ib.record.buf = io.ib.record.buf ++ src ∧
      ((recappend src io).ib.record.capacity = 0 → src = []) := by
  unfold recappend
  rw [if_neg (by simp [h.recfail])]
  split
  · rename_i hfirst
    rcases halloc : Descr.alloc RECINITLEN io.dev with ⟨b, dev⟩
    obtain ⟨hb, -, -, -, -, -, hl', -, hal'⟩ := ch.alloc_ok hl halloc
    obtain rfl := hb hal
    have hinit : RECINITLEN = 2 ^ 9 := by decide
    have hfits := h.fits
    have hpos : RECINITLEN ≠ 0 := by decide
    have hgrown := @recgrow_healthy δ _ ch { io with
      ib := { io.ib with record := { io.ib.record with capacity := RECINITLEN } }, dev } src
    obtain ⟨h₁, hbuf, hcap⟩ := hgrown hl' (hal' hal)
      ⟨h.recfail, .inr ⟨9, by omega, by omega, hinit⟩, by simp only; omega⟩ (.inr hpos) hlen
    exact ⟨h₁, hbuf, fun hz => absurd hz (hcap hpos)⟩
  · rename_i hnot
    have hroom : src = [] ∨ io.ib.record.capacity ≠ 0 := by
      by_contra hno
      rw [not_or, not_not] at hno
      exact hnot ⟨List.length_pos_iff.mpr hno.1, hno.2⟩
    obtain ⟨h₁, hbuf, hcap⟩ := recgrow_healthy src hl hal h hroom hlen
    refine ⟨h₁, hbuf, fun hz => ?_⟩
    by_contra hne
    exact hcap (hroom.resolve_left hne) hz

end Append

/-- The buffer is recorded and emptied.  Only an empty buffer leaves the
record without memory. -/
theorem dropBuffer_healthy {io io' : Io δ} {past : List UInt8} (hl : ch.live io.dev)
    (hal : ch.allocates io.dev) (h : Healthy io.ib) (hrec : Recording io past)
    (hcs : io.ib.cur = io.ib.size) (hlen : past.length ≤ 2 ^ 63) (hd : dropBuffer io = some io') :
    Healthy io'.ib ∧ io'.ib.cur = 0 ∧ io'.ib.size = 0 ∧
      (io'.ib.record.capacity = 0 → io.ib.size = 0 ∧ io.ib.record.capacity = 0) := by
  have hpast := congrArg List.length (hrec.past h.recfail)
  have hbound := hrec.bound
  rw [List.length_append, Bytes.length_window _ hbound] at hpast
  unfold dropBuffer at hd
  split at hd
  · rename_i hne
    rw [Bytes.load_eq _ (by omega), Nat.zero_add] at hd
    have hsrc : (io.ib.buf.window 0 io.ib.size).length = io.ib.size := by
      rw [Bytes.length_window _ (by omega), Nat.sub_zero]
    obtain ⟨h₁, -, hcap⟩ := recappend_healthy (io.ib.buf.window 0 io.ib.size) hl hal h
      (by rw [hsrc]; omega)
    rw [← Option.some.inj hd]
    refine ⟨⟨h₁.recfail, h₁.sized, h₁.fits⟩, rfl, rfl, fun hz => ?_⟩
    have hnil := congrArg List.length (hcap hz)
    rw [hsrc, List.length_nil] at hnil
    exact absurd hnil (by omega)
  · rename_i hno
    have hzero : io.ib.size = 0 := by
      rw [hrec.recording] at hno
      simp only [true_and] at hno
      omega
    rw [← Option.some.inj hd]
    exact ⟨⟨h.recfail, h.sized, h.fits⟩, rfl, rfl, fun hz => ⟨hzero, hz⟩⟩

/-! ## While the header is read -/

/-- How the first buffer of an input that delivers `d` comes about: the probe
fills it, or if `fresh` the first refill.  It holds `M` bytes, or all there
are. -/
structure FirstBuffer (f : Feed ch) (d : List UInt8) (M : Nat) (fresh : Prop) : Prop where
  pos : 0 < M
  length : d.length ≤ 2 ^ 63
  refill : fresh → ∀ {io io' : Io δ} {k : Nat}, f.ready io.dev → io.ib.fd = ch.fi →
    f.holds io.ib (ch.unread io.dev) d → fill io = some (.got k, io') → k = min M d.length

/-- As long as nothing has been recorded, the first buffer is in place. -/
def First (M : Nat) (d : List UInt8) (fresh : Prop) (ib : Ibuf) : Prop :=
  ib.record.capacity = 0 → ib.size = min M d.length ∨ (ib.size = 0 ∧ fresh)

/-- The calls up to here have read `s.past` of the input `d` and recorded it,
and `s.rest` is to come. -/
structure Reading (f : Feed ch) (d : List UInt8) (M : Nat) (fresh : Prop) (io : Io δ) (s : Src) :
    Prop where
  feed : Feeding f io s
  steady : ch.steady io.dev
  allocates : ch.allocates io.dev
  started : s.start = none
  whole : s.past ++ s.rest = d
  record : Recording io s.past
  healthy : Healthy io.ib
  first : First M d fresh io.ib

namespace Reading

variable {f : Feed ch} {d : List UInt8} {M : Nat} {fresh : Prop} {io io₁ io' : Io δ} {s : Src}

theorem live (h : Reading f d M fresh io s) : ch.live io.dev := f.live h.feed.ready

theorem length_past (h : Reading f d M fresh io s) (hfirst : FirstBuffer f d M fresh) :
    s.past.length ≤ 2 ^ 63 := by
  have hlen := congrArg List.length h.whole
  have hmax := hfirst.length
  rw [List.length_append] at hlen
  omega

/-- Nothing recorded and an empty buffer mean that nothing has been read. -/
theorem past_nil (h : Reading f d M fresh io s) (hcap : io.ib.record.capacity = 0)
    (hcur : io.ib.cur = 0) : s.past = [] := by
  have hfits := h.record.fits
  have hbuf : io.ib.record.buf = [] := List.length_eq_zero_iff.mp (by omega)
  have hpast := h.record.past h.healthy.recfail
  rw [hbuf, hcur, Bytes.window_self] at hpast
  exact hpast.symm

/-- What the feed holds when the buffer is used up. -/
theorem holds (h : Reading f d M fresh io s) (hcs : io.ib.cur = io.ib.size) :
    f.holds io.ib (ch.unread io.dev) s.rest := by
  cases h.feed.src with
  | fresh hs => exact absurd h.started (f.start_some hs)
  | opened p hp _ _ hrest _ _ _ =>
    rw [hcs, Bytes.window_self] at hrest
    rw [← hrest]
    exact hp

/-- A refill behind `dropBuffer`. -/
theorem refill (h : Reading f d M fresh io s) (hfirst : FirstBuffer f d M fresh)
    (hcs : io.ib.cur = io.ib.size) (hd : dropBuffer io = some io₁) {nr : Nr}
    (hf : fill io₁ = some (nr, io')) :
    ∃ k, nr = .got k ∧ Healthy io'.ib ∧ io'.ib.size = 0 ∧
      (io'.ib.record.capacity = 0 → k = min M d.length) := by
  obtain ⟨h₁, hcur₁, hsize₁, hzero⟩ := dropBuffer_healthy h.live h.allocates h.healthy h.record hcs
    (h.length_past hfirst) hd
  have hsize := h.record.bound
  obtain ⟨io₂, hd₂, hfr, hu, hib⟩ := dropBuffer_spec h.live (by omega)
  rw [hd] at hd₂
  obtain rfl := Option.some.inj hd₂
  have hready := f.kept h.feed.ready hfr.kept
  have hfd := hfr.fd.trans h.feed.fd
  have hholds : f.holds io₁.ib (ch.unread io₁.dev) s.rest := by
    rw [hu]
    apply f.same _ (h.holds hcs)
    exact ⟨by rw [hib], by rw [hib], by rw [hib], by rw [hib], by rw [hib]⟩
  rcases f.fill_law hready hfd hholds with
    ⟨io₂, hfill, hlost⟩ | ⟨bs, p', io₂, hfill, -, hre, -, hpp, -, -, -⟩
  · exact absurd (hfr.kept.steady h.steady) hlost.unsteady
  rw [hf] at hfill
  obtain ⟨rfl, rfl⟩ := Prod.mk.inj (Option.some.inj hfill)
  refine ⟨bs.length, rfl, ⟨?_, ?_, ?_⟩, hre.size.trans hsize₁, fun hcap => ?_⟩
  · rw [hre.recfail]
    exact h₁.recfail
  · rw [hre.record]
    exact h₁.sized
  · rw [hre.record]
    exact h₁.fits
  rw [hre.record] at hcap
  obtain ⟨hsize₀, hcap₀⟩ := hzero hcap
  have hrest : s.rest = d := by
    have hnil := h.past_nil hcap₀ (by omega)
    rw [← h.whole, hnil]
    rfl
  rcases h.first hcap₀ with hmin | ⟨-, hfresh⟩
  · -- the first buffer was empty, so the input is
    have hpos := hfirst.pos
    have hlen := congrArg List.length hpp
    rw [hrest, List.length_append] at hlen
    omega
  · rw [hrest] at hholds
    exact hfirst.refill hfresh hready hfd hholds hf

/-- The record and the buffer behind the first half of the loop of `bread`. -/
theorem breadRefill_first (h : Reading f d M fresh io s) (hfirst : FirstBuffer f d M fresh)
    {r : Option Bool} (he : Agecrypt.breadRefill io = some (r, io')) :
    Healthy io'.ib ∧ First M d fresh io'.ib := by
  unfold Agecrypt.breadRefill at he
  by_cases hcs : io.ib.cur = io.ib.size
  · rw [if_pos hcs] at he
    obtain ⟨io₁, hd, he⟩ := Option.bind_eq_some_iff.mp he
    obtain ⟨h₁, -, hsize₁, hzero⟩ := dropBuffer_healthy h.live h.allocates h.healthy h.record hcs
      (h.length_past hfirst) hd
    change breadFetch io₁ = _ at he
    unfold breadFetch at he
    split at he
    · obtain ⟨⟨nr, io₂⟩, hf, he⟩ := Option.bind_eq_some_iff.mp he
      obtain ⟨k, rfl, h₂, hsize₂, hk⟩ := h.refill hfirst hcs hd hf
      cases k with
      | zero =>
        obtain ⟨-, rfl⟩ := Prod.mk.inj (Option.some.inj he)
        exact ⟨⟨h₂.recfail, h₂.sized, h₂.fits⟩, fun hcap => .inl (hsize₂.trans (hk hcap))⟩
      | succ k =>
        obtain ⟨-, rfl⟩ := Prod.mk.inj (Option.some.inj he)
        exact ⟨⟨h₂.recfail, h₂.sized, h₂.fits⟩, fun hcap => .inl (hk hcap)⟩
    · obtain ⟨-, rfl⟩ := Prod.mk.inj (Option.some.inj he)
      refine ⟨h₁, fun hcap => ?_⟩
      obtain ⟨hsize, hcap₀⟩ := hzero hcap
      have hstay := h.first hcap₀
      rw [hsize] at hstay
      rw [hsize₁]
      exact hstay
  · rw [if_neg hcs] at he
    have hcur := h.record.cur
    have hz : ¬ (io.ib.size = 0 ∧ io.ib.eof = false) := by omega
    simp only [breadFetch, hz, if_false, Option.bind_eq_bind, Option.bind_some] at he
    obtain ⟨-, rfl⟩ := Prod.mk.inj (Option.some.inj he)
    exact ⟨h.healthy, h.first⟩

/-- The record and the buffer behind a peek. -/
theorem bpeek_first (h : Reading f d M fresh io s) (hfirst : FirstBuffer f d M fresh) {a : Peek}
    (he : Agecrypt.bpeek io = some (a, io')) : Healthy io'.ib ∧ First M d fresh io'.ib := by
  have hprobe : probe io = some (true, io) := by
    rw [probe, if_neg h.record.opened]
  unfold Agecrypt.bpeek at he
  rw [hprobe] at he
  simp only [Option.bind_eq_bind, Option.bind_some, not_true_eq_false, if_false] at he
  split at he
  · obtain ⟨-, rfl⟩ := Prod.mk.inj (Option.some.inj he)
    exact ⟨h.healthy, h.first⟩
  split at he
  · obtain ⟨bs, -, he⟩ := Option.bind_eq_some_iff.mp he
    obtain ⟨-, rfl⟩ := Prod.mk.inj (Option.some.inj he)
    exact ⟨h.healthy, h.first⟩
  · rename_i hge
    have hcs : io.ib.cur = io.ib.size := Nat.le_antisymm h.record.cur (Nat.le_of_not_lt hge)
    obtain ⟨io₁, hd, he⟩ := Option.bind_eq_some_iff.mp he
    obtain ⟨⟨nr, io₂⟩, hf, he⟩ := Option.bind_eq_some_iff.mp he
    obtain ⟨k, rfl, h₂, hsize₂, hk⟩ := h.refill hfirst hcs hd hf
    cases k with
    | zero =>
      obtain ⟨-, rfl⟩ := Prod.mk.inj (Option.some.inj he)
      exact ⟨⟨h₂.recfail, h₂.sized, h₂.fits⟩, fun hcap => .inl (hsize₂.trans (hk hcap))⟩
    | succ k =>
      obtain ⟨bs, -, he⟩ := Option.bind_eq_some_iff.mp he
      obtain ⟨-, rfl⟩ := Prod.mk.inj (Option.some.inj he)
      exact ⟨⟨h₂.recfail, h₂.sized, h₂.fits⟩, fun hcap => .inl (hk hcap)⟩

/-- A step that the source takes. -/
theorem step (h : Reading f d M fresh io s) {s' : Src} (hfr : Frame ch io io')
    (hsrc : SrcRel f io'.ib (ch.unread io'.dev) s') (hst : s'.start = none)
    (hw : s'.past ++ s'.rest = d) (hrec : Recording io' s'.past)
    (hhf : Healthy io'.ib ∧ First M d fresh io'.ib) : Reading f d M fresh io' s' :=
  ⟨h.feed.frame hfr hsrc, hfr.kept.steady h.steady, hfr.kept.allocates h.allocates, hst, hw, hrec,
    hhf.1, hhf.2⟩

/-- The first half of the loop body of `bread`. -/
theorem breadRefill (h : Reading f d M fresh io s) (hfirst : FirstBuffer f d M fresh) :
    (∃ io', Agecrypt.breadRefill io = some (some true, io') ∧ s.rest = [] ∧ Frame ch io io' ∧
      Reading f d M fresh io' { s with eof := true }) ∨
    ∃ io', Agecrypt.breadRefill io = some (none, io') ∧ Frame ch io io' ∧
      Reading f d M fresh io' s ∧
      (io'.ib.cur < io'.ib.size ∨
        (io'.ib.eof = true ∧ io'.ib.cur = io'.ib.size ∧ s.rest = [])) := by
  rcases breadRefill_spec h.feed.ready h.feed.fd h.started h.feed.src with
    ⟨io', he, hlost⟩ | ⟨io', he, hfr, hnil, hsrc⟩ | ⟨io', he, hfr, hsrc, hready⟩
  · exact absurd h.steady hlost.unsteady
  · have hrec := h.record.breadRefill _ _ he
    exact .inl ⟨io', he, hnil, hfr, h.step hfr hsrc h.started h.whole hrec
      (h.breadRefill_first hfirst he)⟩
  · have hrec := h.record.breadRefill _ _ he
    exact .inr ⟨io', he, hfr, h.step hfr hsrc h.started h.whole hrec
      (h.breadRefill_first hfirst he), hready⟩

/-- Taking `c` bytes from the buffer. -/
theorem take {c : Nat} (h : Reading f d M fresh io s) (hc : io.ib.cur + c ≤ io.ib.size) :
    s.rest.take c = io.ib.buf.window io.ib.cur (io.ib.cur + c) ∧ c ≤ s.rest.length ∧
      io.ib.size ≤ IOBUFSIZE ∧
      Reading f d M fresh { io with ib := { io.ib with cur := io.ib.cur + c } } (s.skip c) := by
  obtain ⟨htake, hle, hsize, hsrc⟩ := h.feed.src.take h.started hc
  have hfr : Frame ch io { io with ib := { io.ib with cur := io.ib.cur + c } } :=
    ⟨.refl h.live, rfl, rfl, rfl, rfl, rfl⟩
  refine ⟨htake, hle, hsize, h.step hfr hsrc h.started ?_ ?_
    ⟨⟨h.healthy.recfail, h.healthy.sized, h.healthy.fits⟩, h.first⟩⟩
  · show s.past ++ s.rest.take c ++ s.rest.drop c = d
    rw [List.append_assoc, List.take_append_drop, h.whole]
  · refine ⟨h.record.recording, h.record.opened, hc, ?_, h.record.fits, fun hfail => ?_⟩
    · show io.ib.cur + c ≤ IOBUFSIZE
      omega
    · show io.ib.record.buf ++ io.ib.buf.window 0 (io.ib.cur + c) = s.past ++ s.rest.take c
      rw [← h.record.past hfail, htake, List.append_assoc,
        Bytes.window_append _ (Nat.zero_le _) (Nat.le_add_right _ _)]

/-- The loop of `bread`. -/
theorem breadLoop (hfirst : FirstBuffer f d M fresh) (fuel : Nat) : ∀ (n : Nat)
    (acc : List UInt8) {io : Io δ} {s : Src}, Reading f d M fresh io s → n ≤ fuel →
    ∃ io', Agecrypt.breadLoop fuel n acc io = some (some (acc ++ (s.bread n).1), io') ∧
      Frame ch io io' ∧ Reading f d M fresh io' (s.bread n).2 := by
  induction fuel with
  | zero =>
    intro n acc io s h hn
    obtain rfl : n = 0 := by omega
    rw [Src.bread_zero h.started]
    exact ⟨io, by simp [Agecrypt.breadLoop], .refl h.live, h⟩
  | succ fuel ih =>
    intro n acc io s h hn
    cases n with
    | zero =>
      rw [Src.bread_zero h.started]
      exact ⟨io, by simp [Agecrypt.breadLoop], .refl h.live, h⟩
    | succ n =>
      rw [Agecrypt.breadLoop]
      rcases h.breadRefill hfirst with ⟨io₁, hr, hnil, hfr, h₁⟩ | ⟨io₁, hr, hfr, h₁, hready⟩
      · rw [hr, Src.bread_end h.started hnil (Nat.succ_pos n), List.append_nil]
        exact ⟨io₁, rfl, hfr, h₁⟩
      rw [hr]
      simp only [Option.bind_eq_bind, Option.bind_some]
      rcases hready with hlt | ⟨heof, hcs, hnil⟩
      · rw [if_neg (by omega)]
        obtain ⟨c, hc⟩ : ∃ c, c = min (io₁.ib.size - io₁.ib.cur) (n + 1) := ⟨_, rfl⟩
        rw [← hc]
        obtain ⟨htake, hle, hsize, h₂⟩ := h₁.take (c := c) (by omega)
        rw [Bytes.load_eq _ (by omega), ← htake, Src.bread_split h.started (by omega) hle]
        simp only [Option.bind_some, ← List.append_assoc]
        obtain ⟨io₂, hl, hfr₂, h₃⟩ := ih (n + 1 - c) (acc ++ s.rest.take c) h₂ (by omega)
        exact ⟨io₂, hl, hfr.trans ⟨hfr₂.kept, hfr₂.accepted, hfr₂.fd, hfr₂.ob, hfr₂.ebuf,
          hfr₂.data⟩, h₃⟩
      · rw [if_pos ⟨by omega, heof⟩, Src.bread_end h.started hnil (Nat.succ_pos n), List.append_nil]
        refine ⟨io₁, rfl, hfr, h₁.step (.refl h₁.live) ?_ h.started h.whole h₁.record
          ⟨h₁.healthy, h₁.first⟩⟩
        cases h₁.feed.src with
        | fresh hs => exact absurd h.started (f.start_some hs)
        | opened p hp hcur hsize hrest he hun _ =>
          exact .opened p hp hcur hsize hrest heof.symm hun h.started

theorem probed (h : Reading f d M fresh io s) : probe io = some (true, io) := by
  rw [probe, if_neg h.record.opened]

theorem bread (h : Reading f d M fresh io s) (hfirst : FirstBuffer f d M fresh) (n : Nat) :
    ∃ io', Agecrypt.bread n io = some (some (s.bread n).1, io') ∧ Frame ch io io' ∧
      Reading f d M fresh io' (s.bread n).2 := by
  obtain ⟨io', hl, hfr, h'⟩ := breadLoop hfirst n n [] h (Nat.le_refl n)
  rw [List.nil_append] at hl
  refine ⟨io', ?_, hfr, h'⟩
  unfold Agecrypt.bread
  rw [h.probed]
  exact hl

theorem bpeek (h : Reading f d M fresh io s) (hfirst : FirstBuffer f d M fresh) :
    ∃ io', Agecrypt.bpeek io = some (s.bpeek.1, io') ∧ Frame ch io io' ∧
      Reading f d M fresh io' s.bpeek.2 := by
  rcases bpeek_spec h.feed.ready h.feed.fd h.feed.src with ⟨io', -, hlost⟩ | ⟨io', he, hfr, hsrc⟩
  · exact absurd h.steady hlost.unsteady
  have hpast : s.bpeek.2.past = s.past := by
    unfold Src.bpeek
    split
    · rfl
    · exact s.probe_past
  have hst : s.bpeek.2.start = none := by
    unfold Src.bpeek
    split
    · rfl
    · exact s.probe_start
  refine ⟨io', he, hfr, h.step hfr hsrc hst ?_ ?_ (h.bpeek_first hfirst he)⟩
  · rw [hpast, s.bpeek_rest]
    exact h.whole
  · rw [hpast]
    exact h.record.bpeek _ _ he

end Reading

/-! ## Behind `recstop` -/

/-- The pointer that `recstop` returned shows `past`, and goes on to do so
while no more than `b` bytes are read. -/
structure Pinned (past : List UInt8) (b : Nat) (io : Io δ) : Prop where
  recording : io.ib.recording = false
  opened : io.ib.isarmor ≠ .unchecked
  bytes : (io.data = .recording ∧ io.ib.record.buf = past) ∨
    (io.data = .readBuffer ∧ past.length ≤ IOBUFSIZE ∧ io.ib.buf.window 0 past.length = past ∧
      io.ib.cur + b ≤ io.ib.size)

namespace Pinned

variable {past : List UInt8} {b : Nat} {io io' : Io δ}

omit [Descr δ] in
theorem load (h : Pinned past b io) : loadData past.length io = some past := by
  unfold loadData
  rcases h.bytes with ⟨hdata, hbuf⟩ | ⟨hdata, hlen, hwin, -⟩
  · rw [hdata]
    simp only
    rw [hbuf, if_pos (Nat.le_refl _), List.take_length]
  · rw [hdata]
    simp only
    rw [Bytes.load_eq _ (by omega), Nat.zero_add, hwin]

/-- A buffer that is not recorded is emptied without a trace. -/
theorem breadRefill (hrec : io.ib.recording = false) {r : Option Bool}
    (he : Agecrypt.breadRefill io = some (r, io')) :
    io'.ib.recording = false ∧ io'.ib.isarmor = io.ib.isarmor ∧ io'.ib.record = io.ib.record := by
  have hfetch : ∀ {io₁ : Io δ}, breadFetch io₁ = some (r, io') → io₁.ib.recording = false →
      io₁.ib.isarmor = io.ib.isarmor → io₁.ib.record = io.ib.record → io'.ib.recording = false ∧
        io'.ib.isarmor = io.ib.isarmor ∧ io'.ib.record = io.ib.record := by
    intro io₁ hf h₁ h₂ h₃
    unfold breadFetch at hf
    split at hf
    · obtain ⟨⟨nr, io₂⟩, hfill, hf⟩ := Option.bind_eq_some_iff.mp hf
      have hre := fill_refilled io₁ nr io₂ hfill
      have hthree : io₂.ib.recording = false ∧ io₂.ib.isarmor = io.ib.isarmor ∧
          io₂.ib.record = io.ib.record :=
        ⟨hre.recording.trans h₁, hre.isarmor.trans h₂, hre.record.trans h₃⟩
      rcases nr with _ | _ | _ | n <;>
        obtain ⟨-, rfl⟩ := Prod.mk.inj (Option.some.inj hf) <;> exact hthree
    · obtain ⟨-, rfl⟩ := Prod.mk.inj (Option.some.inj hf)
      exact ⟨h₁, h₂, h₃⟩
  unfold Agecrypt.breadRefill at he
  split at he
  · obtain ⟨io₁, hd, he⟩ := Option.bind_eq_some_iff.mp he
    unfold dropBuffer at hd
    rw [if_neg (by simp [hrec])] at hd
    rw [← Option.some.inj hd] at he
    exact hfetch he hrec rfl rfl
  · exact hfetch he hrec rfl rfl

/-- The next byte. -/
theorem bread (h : Pinned past (b + 1) io) {r : Option (List UInt8)}
    (he : Agecrypt.bread 1 io = some (r, io')) (hdata : io'.data = io.data) :
    Pinned past b io' := by
  unfold Agecrypt.bread at he
  rw [probe, if_neg h.opened] at he
  simp only [Option.bind_eq_bind, Option.bind_some, if_true] at he
  rw [breadLoop] at he
  obtain ⟨⟨r₁, io₁⟩, hr, he⟩ := Option.bind_eq_some_iff.mp he
  obtain ⟨hrec₁, harm₁, hrecord₁⟩ := breadRefill h.recording hr
  -- what the rest of the round changes is the cursor
  have hrest : (io' = io₁ ∨ ∃ c, io' = { io₁ with ib := { io₁.ib with cur := io₁.ib.cur + c } } ∧
      c ≤ 1) := by
    rcases r₁ with _ | _ | _
    · simp only at he
      split at he
      · exact .inl (Prod.mk.inj (Option.some.inj he)).2.symm
      · obtain ⟨bs, -, he⟩ := Option.bind_eq_some_iff.mp he
        obtain ⟨c, hc⟩ : ∃ c, c = min (io₁.ib.size - io₁.ib.cur) (0 + 1) := ⟨_, rfl⟩
        rw [← hc] at he
        refine .inr ⟨c, ?_, by omega⟩
        obtain hz | hz : 0 + 1 - c = 0 ∨ 0 + 1 - c = 1 := by omega
        · rw [hz, breadLoop] at he
          exact (Prod.mk.inj (Option.some.inj he)).2.symm
        · rw [hz, breadLoop] at he
          cases he
    · exact .inl (Prod.mk.inj (Option.some.inj he)).2.symm
    · exact .inl (Prod.mk.inj (Option.some.inj he)).2.symm
  have hkeep : io'.ib.recording = false ∧ io'.ib.isarmor = io.ib.isarmor ∧
      io'.ib.record = io.ib.record := by
    rcases hrest with rfl | ⟨c, rfl, -⟩ <;> exact ⟨hrec₁, harm₁, hrecord₁⟩
  refine ⟨hkeep.1, by rw [hkeep.2.1]; exact h.opened, ?_⟩
  rcases h.bytes with ⟨hptr, hbuf⟩ | ⟨hptr, hlen, hwin, hroom⟩
  · exact .inl ⟨hdata.trans hptr, by rw [hkeep.2.2]; exact hbuf⟩
  · -- the byte is in the buffer
    have hstay : io₁ = io := by
      unfold Agecrypt.breadRefill at hr
      rw [if_neg (by omega)] at hr
      have hz : ¬ (io.ib.size = 0 ∧ io.ib.eof = false) := by omega
      simp only [breadFetch, hz, if_false, Option.bind_eq_bind, Option.bind_some] at hr
      exact (Prod.mk.inj (Option.some.inj hr)).2.symm
    rw [hstay] at hrest
    refine .inr ⟨hdata.trans hptr, hlen, ?_⟩
    rcases hrest with rfl | ⟨c, rfl, hc⟩
    · exact ⟨hwin, by omega⟩
    · exact ⟨hwin, by simp only; omega⟩

end Pinned

/-- What the reads depend on is neither the record nor the flag. -/
theorem SrcRel.record {f : Feed ch} {ib ib' : Ibuf} {u : List UInt8} {s : Src}
    (h : SrcRel f ib u s) (hst : s.start = none)
    (hib : ib' = { ib with
      recording := ib'.recording, record := ib'.record, recfail := ib'.recfail }) :
    SrcRel f ib' u s := by
  cases h with
  | fresh hs => exact absurd hst (f.start_some hs)
  | opened p hp hcur hsize hrest heof hend _ =>
    have hsame : SameFeed ib ib' :=
      ⟨by rw [hib], by rw [hib], by rw [hib], by rw [hib], by rw [hib]⟩
    refine .opened p (f.same hsame hp) ?_ ?_ ?_ ?_ ?_ hst
    · rw [hib]
      exact hcur
    · rw [hib]
      exact hsize
    · rw [hib]
      exact hrest
    · rw [hib]
      exact heof
    · rw [hib]
      exact hend

/-- The number of characters of the line of the MAC behind `---`. -/
def MACLEN : Nat := 45

namespace Reading

variable {f : Feed ch} {d : List UInt8} {M : Nat} {fresh : Prop} {io : Io δ} {s : Src}

/-- `recstop` returns what has been read.  The pointer is good for the line
of the MAC, unless that line begins in the first buffer and ends behind it. -/
theorem recstop (h : Reading f d M fresh io s) (hfirst : FirstBuffer f d M fresh)
    (hpast : s.past ≠ []) (hsafe : M < s.past.length ∨ s.past.length + MACLEN ≤ M) :
    ∃ io', Agecrypt.recstop io = some (some s.past.length, io') ∧ Feeding f io' s ∧
      ch.steady io'.dev ∧ (∀ k, SnkRel ch io k → SnkRel ch io' k) ∧ ch.allocates io'.dev ∧
      (MACLEN ≤ s.rest.length → Pinned s.past MACLEN io') := by
  obtain ⟨io₀, hio₀⟩ : ∃ io₀, io₀ = { io with ib := { io.ib with recording := false } } := ⟨_, rfl⟩
  have hib₀ : io₀.ib = { io.ib with recording := false } := by rw [hio₀]
  have hrec := h.record.past h.healthy.recfail
  have hbound := h.record.bound
  have hfeed := h.feed
  have hwhole := congrArg List.length h.whole
  rw [List.length_append] at hwhole
  have hwin : (io.ib.buf.window 0 io.ib.cur).length = io.ib.cur := by
    rw [Bytes.length_window _ hbound, Nat.sub_zero]
  have hfail₀ : io₀.ib.recfail = none := by
    rw [hib₀]
    exact h.healthy.recfail
  unfold Agecrypt.recstop
  rw [← hio₀]
  simp only [hfail₀]
  by_cases hcap : io.ib.record.capacity = 0
  · -- everything is in the first buffer
    have hfits := h.healthy.fits
    have hempty : io.ib.record.buf = [] := List.length_eq_zero_iff.mp (by omega)
    rw [hempty, List.nil_append] at hrec
    have hcur : s.past.length = io.ib.cur := by rw [← hrec, hwin]
    have hpos := List.length_pos_iff.mpr hpast
    have hle := h.record.cur
    have hsize : io.ib.size = min M d.length := by
      rcases h.first hcap with hmin | ⟨hzero, -⟩
      · exact hmin
      · omega
    have hcap₀ : io₀.ib.record.capacity = 0 := by
      rw [hib₀]
      exact hcap
    have hcur₀ : io₀.ib.cur = s.past.length := by
      rw [hib₀]
      exact hcur.symm
    rw [if_pos hcap₀, hcur₀]
    have hshort : s.past.length ≤ IOBUFSIZE := by omega
    refine ⟨_, rfl, ⟨?_, ?_, ?_, ?_, ?_⟩, ?_, ?_, ?_,
      fun hmac => ⟨?_, ?_, .inr ⟨rfl, hshort, ?_, ?_⟩⟩⟩ <;> rw [hio₀]
    · exact hfeed.ready
    · exact hfeed.fd
    · exact hfeed.src.record h.started rfl
    · exact hfeed.ofd
    · exact hfeed.cur
    · exact h.steady
    · exact fun k hk => ⟨hk.fd, hk.isarmor, hk.cur, hk.held, hk.sent⟩
    · exact h.allocates
    · exact h.record.opened
    · show io.ib.buf.window 0 s.past.length = s.past
      rw [hcur]
      exact hrec
    · show io.ib.cur + MACLEN ≤ io.ib.size
      omega
  · have hcap₀ : ¬ io₀.ib.record.capacity = 0 := by
      rw [hib₀]
      exact hcap
    have hload : io₀.ib.buf.load 0 io₀.ib.cur = some (io.ib.buf.window 0 io.ib.cur) := by
      rw [hib₀, Bytes.load_eq _ (by simp only; omega), Nat.zero_add]
    rw [if_neg hcap₀, hload]
    simp only [Option.bind_eq_bind, Option.bind_some]
    obtain ⟨io₁, hio₁⟩ : ∃ io₁, io₁ = recappend (io.ib.buf.window 0 io.ib.cur) io₀ := ⟨_, rfl⟩
    have hlive₀ : ch.live io₀.dev := by
      rw [hio₀]
      exact h.live
    have hal₀ : ch.allocates io₀.dev := by
      rw [hio₀]
      exact h.allocates
    have hhealthy₀ : Healthy io₀.ib := by
      rw [hib₀]
      exact ⟨h.healthy.recfail, h.healthy.sized, h.healthy.fits⟩
    have hbuf₀ : io₀.ib.record.buf ++ io.ib.buf.window 0 io.ib.cur = s.past := by
      rw [hib₀]
      exact hrec
    have hlen := h.length_past hfirst
    obtain ⟨-, hbuf, -⟩ := recappend_healthy (io.ib.buf.window 0 io.ib.cur) hlive₀ hal₀ hhealthy₀
      (by rw [← List.length_append, hbuf₀]; exact hlen)
    have hrecd : Recorded ch io₀ _ := recappend_recorded (io.ib.buf.window 0 io.ib.cur) hlive₀
    rw [← hio₁] at hbuf hrecd ⊢
    rw [hbuf₀] at hbuf
    have hkept : ch.Kept io.dev io₁.dev := by
      have := hrecd.frame.kept
      rw [hio₀] at this
      exact this
    have hob : io₁.ob = io.ob := by
      rw [hrecd.frame.ob, hio₀]
    have hu : ch.unread io₁.dev = ch.unread io.dev := by
      rw [hrecd.unread, hio₀]
    have hacc : ch.accepted io₁.dev = ch.accepted io.dev := by
      rw [hrecd.frame.accepted, hio₀]
    have hib : io₁.ib = { io.ib with
        recording := false, record := io₁.ib.record, recfail := io₁.ib.recfail } := by
      rw [hrecd.ib, hib₀]
    rw [hbuf]
    refine ⟨_, rfl, ⟨?_, ?_, ?_, ?_, ?_⟩, hkept.steady h.steady, ?_, hkept.allocates h.allocates,
      fun _ => ⟨?_, ?_, .inl ⟨rfl, hbuf⟩⟩⟩
    · exact f.kept hfeed.ready hkept
    · show io₁.ib.fd = ch.fi
      rw [hib]
      exact hfeed.fd
    · show SrcRel f io₁.ib (ch.unread io₁.dev) s
      rw [hu]
      apply hfeed.src.record h.started
      rw [hib]
    · show io₁.ob.fd = ch.fo
      rw [hob]
      exact hfeed.ofd
    · show io₁.ob.cur < io₁.ob.cap
      rw [hob]
      exact hfeed.cur
    · intro k hk
      refine ⟨?_, ?_, ?_, ?_, ?_⟩
      · show io₁.ob.fd = ch.fo
        rw [hob]
        exact hk.fd
      · show io₁.ob.isarmor = k.isarmor
        rw [hob]
        exact hk.isarmor
      · show io₁.ob.cur < io₁.ob.cap
        rw [hob]
        exact hk.cur
      · show io₁.ob.buf.window 0 io₁.ob.cur = k.held
        rw [hob]
        exact hk.held
      · exact hacc.trans hk.sent
    · show io₁.ib.recording = false
      rw [hib]
    · show io₁.ib.isarmor ≠ .unchecked
      rw [hib]
      exact h.record.opened

end Reading

end Agecrypt
