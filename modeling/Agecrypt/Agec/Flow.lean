import Agecrypt.Agec.Reader

/-!
# Reading what may be refused

A `Feed` is an input that is read to its end.  A `Flow` may end in a format
error: `holds ib u p ok` says that with `u` unread the refills will deliver
`p`, and that the end of the input is accepted if `ok`.  Recording may fail
for want of memory.

`Flow.Reads f io rest ok` says that the reads will deliver `rest`.  `bread`
delivers the next bytes, or it reports a failed read or, when `ok` is false,
a format error.  Only an accepted input is read to its end.
-/

namespace Agecrypt

variable {δ : Type} [Descr δ] {ch : Chan δ}

/-- No read failed, and the descriptor is the same. -/
structure Unharmed (ch : Chan δ) (io io' : Io δ) : Prop where
  live : ch.live io'.dev
  steady : ch.steady io.dev → ch.steady io'.dev
  fails : ch.fails io'.dev = ch.fails io.dev
  fd : io'.ib.fd = io.ib.fd

namespace Unharmed

theorem refl {io : Io δ} (h : ch.live io.dev) : Unharmed ch io io := ⟨h, id, rfl, rfl⟩

theorem trans {io₁ io₂ io₃ : Io δ} (h : Unharmed ch io₁ io₂) (h' : Unharmed ch io₂ io₃) :
    Unharmed ch io₁ io₃ :=
  ⟨h'.live, fun hs => h'.steady (h.steady hs), h'.fails.trans h.fails, h'.fd.trans h.fd⟩

/-- Changes of the buffer alone. -/
theorem buffer {io io' : Io δ} (h : Unharmed ch io io') {ib : Ibuf} (hfd : ib.fd = io'.ib.fd) :
    Unharmed ch io { io' with ib } := ⟨h.live, h.steady, h.fails, hfd.trans h.fd⟩

end Unharmed

theorem Frame.unharmed {io io' : Io δ} (h : Frame ch io io') : Unharmed ch io io' :=
  ⟨h.kept.live, h.kept.steady, h.kept.fails, h.fd⟩

/-- What a refill leaves that reports an error. -/
structure Spoilt (ch : Chan δ) (io io' : Io δ) : Prop where
  live : ch.live io'.dev
  fd : io'.ib.fd = io.ib.fd
  refilled : Refilled io.ib io'.ib

/-- An input whose end may be refused.  `spoilt` is what holds of the buffer
after an error. -/
structure Flow (ch : Chan δ) where
  holds : Ibuf → List UInt8 → List UInt8 → Bool → Prop
  spoilt : Ibuf → Prop
  same : ∀ {ib ib' u p ok}, SameFeed ib ib' → holds ib u p ok → holds ib' u p ok
  fill_law : ∀ {io : Io δ} {p ok}, ch.live io.dev → io.ib.fd = ch.fi →
    holds io.ib (ch.unread io.dev) p ok →
    (∃ io', fill io = some (.ioerr, io') ∧ ch.ReadLost io.dev io'.dev ∧ Spoilt ch io io' ∧
      spoilt io'.ib) ∨
    (ok = false ∧ p.length < IOBUFSIZE ∧ ∃ io', fill io = some (.fmterr, io') ∧
      Spoilt ch io io' ∧ spoilt io'.ib) ∨
    ((ok = true ∨ IOBUFSIZE ≤ p.length) ∧
      ∃ k io', fill io = some (.got k, io') ∧ Unharmed ch io io' ∧ Refilled io.ib io'.ib ∧
        holds io'.ib (ch.unread io'.dev) (p.drop k) ok ∧ (k = 0 → p = []) ∧ k ≤ IOBUFSIZE ∧
        k ≤ p.length ∧ io'.ib.buf.window 0 k = p.take k)

variable {f : Flow ch} {io : Io δ} {rest : List UInt8} {ok : Bool}

/-- The buffered bytes and those to come are `rest`, and `ok` says whether
the end of the input is accepted. -/
structure Flow.Reads (f : Flow ch) (io : Io δ) (rest : List UInt8) (ok : Bool) : Prop where
  live : ch.live io.dev
  fd : io.ib.fd = ch.fi
  cur : io.ib.cur ≤ io.ib.size
  size : io.ib.size ≤ IOBUFSIZE
  bytes : ∃ p, f.holds io.ib (ch.unread io.dev) p ok ∧
    rest = io.ib.buf.window io.ib.cur io.ib.size ++ p ∧ (io.ib.eof = true → p = [] ∧ ok = true)

/-- An error was reported: a read failed, or the input is refused. -/
structure Flow.Failed (f : Flow ch) (io io' : Io δ) (ok : Bool) : Prop where
  live : ch.live io'.dev
  fd : io'.ib.fd = io.ib.fd
  empty : io'.ib.cur = 0 ∧ io'.ib.size = 0 ∧ io'.ib.eof = false
  spoilt : f.spoilt io'.ib
  cause : ch.ReadLost io.dev io'.dev ∨ ok = false

theorem Unharmed.lost {io₁ io₂ io₃ : Io δ} (h : Unharmed ch io₁ io₂)
    (h' : ch.ReadLost io₂.dev io₃.dev) : ch.ReadLost io₁.dev io₃.dev :=
  ⟨h'.live, by rw [← h.fails]; exact h'.fails, fun hs => h'.unsteady (h.steady hs)⟩

theorem Unharmed.failed {io₁ io₂ io₃ : Io δ} (h : Unharmed ch io₁ io₂)
    (h' : f.Failed io₂ io₃ ok) : f.Failed io₁ io₃ ok :=
  ⟨h'.live, h'.fd.trans h.fd, h'.empty, h'.spoilt, h'.cause.imp_left h.lost⟩

namespace Flow.Reads

/-- The buffer is recorded and emptied. -/
theorem dropBuffer (h : f.Reads io rest ok) (hcs : io.ib.cur = io.ib.size) :
    ∃ io', Agecrypt.dropBuffer io = some io' ∧ Unharmed ch io io' ∧ f.Reads io' rest ok ∧
      io'.ib.cur = 0 ∧ io'.ib.size = 0 ∧ io'.ib.eof = io.ib.eof := by
  obtain ⟨io', hdrop, hfr, hu, hib⟩ := dropBuffer_spec h.live h.size
  have hcur : io'.ib.cur = 0 := by rw [hib]
  have hsize : io'.ib.size = 0 := by rw [hib]
  have heof : io'.ib.eof = io.ib.eof := by rw [hib]
  have hsame : SameFeed io.ib io'.ib :=
    ⟨by rw [hib], by rw [hib], by rw [hib], by rw [hib], by rw [hib]⟩
  obtain ⟨p, hp, hrest, hend⟩ := h.bytes
  refine ⟨io', hdrop, hfr.unharmed, ?_, hcur, hsize, heof⟩
  refine ⟨hfr.kept.live, hfr.fd.trans h.fd, by omega, by omega, p, ?_, ?_, ?_⟩
  · rw [hu]
    exact f.same hsame hp
  · rw [hcur, hsize, Bytes.window_self]
    rw [hcs, Bytes.window_self] at hrest
    exact hrest
  · rw [heof]
    exact hend

/-- A refill of an empty buffer, and what holds once the buffer is set. -/
theorem fill (h : f.Reads io rest ok) (hcur : io.ib.cur = 0) (hsize : io.ib.size = 0)
    (heof : io.ib.eof = false) :
    (∃ io', Agecrypt.fill io = some (.ioerr, io') ∧ f.Failed io io' ok ∧
      ch.ReadLost io.dev io'.dev) ∨
    (∃ io', Agecrypt.fill io = some (.fmterr, io') ∧ f.Failed io io' ok ∧ ok = false ∧
      rest.length < IOBUFSIZE) ∨
    ((ok = true ∨ IOBUFSIZE ≤ rest.length) ∧
      ∃ k io', Agecrypt.fill io = some (.got k, io') ∧ Unharmed ch io io' ∧
        Refilled io.ib io'.ib ∧ (k = 0 → rest = [] ∧ ok = true) ∧
        ∀ ib, SameFeed io'.ib ib → ib.fd = io'.ib.fd → ib.buf = io'.ib.buf → ib.cur = 0 →
          ib.size = k → (ib.eof = true → k = 0) → f.Reads { io' with ib } rest ok) := by
  obtain ⟨p, hp, hrest, -⟩ := h.bytes
  rw [hcur, hsize, Bytes.window_self, List.nil_append] at hrest
  subst hrest
  have hfailed : ∀ {io'}, Spoilt ch io io' → f.spoilt io'.ib →
      ch.ReadLost io.dev io'.dev ∨ ok = false → f.Failed io io' ok := by
    intro io' hs hsp hcause
    refine ⟨hs.live, hs.fd, ⟨?_, ?_, ?_⟩, hsp, hcause⟩
    · rw [hs.refilled.cur, hcur]
    · rw [hs.refilled.size, hsize]
    · rw [hs.refilled.eof, heof]
  rcases f.fill_law h.live h.fd hp with
    ⟨io', hfill, hlost, hs, hsp⟩ | ⟨hok, hlen, io', hfill, hs, hsp⟩ |
    ⟨hok, k, io', hfill, hun, hre, hp', hz, hk, hkp, hw⟩
  · exact .inl ⟨io', hfill, hfailed hs hsp (.inl hlost), hlost⟩
  · exact .inr (.inl ⟨io', hfill, hfailed hs hsp (.inr hok), hok, hlen⟩)
  have hnil : k = 0 → rest = [] ∧ ok = true := by
    intro hk0
    have hpos : 0 < IOBUFSIZE := by decide
    have hr := hz hk0
    refine ⟨hr, hok.resolve_right ?_⟩
    rw [hr, List.length_nil]
    omega
  refine .inr (.inr ⟨hok, k, io', hfill, hun, hre, hnil, ?_⟩)
  intro ib hs hfd hbuf hc hsz he
  refine ⟨hun.live, hfd.trans (hun.fd.trans h.fd), ?_, ?_, rest.drop k, f.same hs hp', ?_, ?_⟩
  · show ib.cur ≤ ib.size
    omega
  · show ib.size ≤ IOBUFSIZE
    omega
  · show rest = ib.buf.window ib.cur ib.size ++ rest.drop k
    rw [hc, hsz, hbuf, hw, List.take_append_drop]
  · intro heof'
    obtain ⟨hr, hk'⟩ := hnil (he heof')
    exact ⟨by rw [hr, List.drop_nil], hk'⟩

/-- The first half of the loop body of `bread`. -/
theorem breadRefill (h : f.Reads io rest ok) :
    (∃ io', Agecrypt.breadRefill io = some (some false, io') ∧ f.Failed io io' ok) ∨
    (∃ io', Agecrypt.breadRefill io = some (some true, io') ∧ Unharmed ch io io' ∧ rest = [] ∧
      ok = true ∧ f.Reads io' rest ok) ∨
    ∃ io', Agecrypt.breadRefill io = some (none, io') ∧ Unharmed ch io io' ∧ f.Reads io' rest ok ∧
      (io'.ib.cur < io'.ib.size ∨
        (io'.ib.eof = true ∧ io'.ib.cur = io'.ib.size ∧ rest = [] ∧ ok = true)) := by
  have hcur := h.cur
  unfold Agecrypt.breadRefill
  by_cases hcs : io.ib.cur = io.ib.size
  swap
  · refine .inr (.inr ⟨io, ?_, .refl h.live, h, .inl (by omega)⟩)
    have hz : ¬ (io.ib.size = 0 ∧ io.ib.eof = false) := by omega
    rw [if_neg hcs]
    simp [breadFetch, hz]
  obtain ⟨io₁, hdrop, hpass, h₁, hcur₁, hsize₁, heof₁⟩ := h.dropBuffer hcs
  rw [if_pos hcs, hdrop]
  simp only [Option.bind_eq_bind, Option.bind_some, breadFetch, hsize₁, true_and]
  by_cases he : io₁.ib.eof = true
  · obtain ⟨p, -, hrest, hend⟩ := h₁.bytes
    obtain ⟨hp, hok⟩ := hend he
    rw [hcur₁, hsize₁, Bytes.window_self, hp] at hrest
    rw [if_neg (by simp [he])]
    exact .inr (.inr ⟨io₁, rfl, hpass, h₁, .inr ⟨he, by omega, hrest, hok⟩⟩)
  have he' : io₁.ib.eof = false := by simpa using he
  rw [if_pos he']
  rcases h₁.fill hcur₁ hsize₁ he' with
    ⟨io₂, hfill, hfail, -⟩ | ⟨io₂, hfill, hfail, -, -⟩ | ⟨-, k, io₂, hfill, hpass₂, hre, hnil, hset⟩
  · rw [hfill]
    exact .inl ⟨io₂, rfl, hpass.failed hfail⟩
  · rw [hfill]
    exact .inl ⟨_, rfl, hpass.failed ⟨hfail.live, hfail.fd, hfail.empty, hfail.spoilt, hfail.cause⟩⟩
  rw [hfill]
  cases k with
  | zero =>
    obtain ⟨hr, hok⟩ := hnil rfl
    refine .inr (.inl ⟨_, rfl, (hpass.trans hpass₂).buffer rfl, hr, hok, ?_⟩)
    exact hset _ ⟨rfl, rfl, rfl, rfl, rfl⟩ rfl rfl (hre.cur.trans hcur₁) (hre.size.trans hsize₁)
      fun _ => rfl
  | succ k =>
    refine .inr (.inr ⟨_, rfl, (hpass.trans hpass₂).buffer rfl, ?_, .inl ?_⟩)
    · exact hset _ ⟨rfl, rfl, rfl, rfl, rfl⟩ rfl rfl (hre.cur.trans hcur₁) rfl
        fun heof => absurd (hre.eof.symm.trans heof) he
    · show io₂.ib.cur < k + 1
      rw [hre.cur, hcur₁]
      exact Nat.succ_pos k

/-- Taking `c` bytes from the buffer. -/
private theorem take {c : Nat} (h : f.Reads io rest ok) (hc : io.ib.cur + c ≤ io.ib.size) :
    io.ib.buf.window io.ib.cur (io.ib.cur + c) = rest.take c ∧ c ≤ rest.length ∧
      f.Reads { io with ib := { io.ib with cur := io.ib.cur + c } } (rest.drop c) ok := by
  have hsize := h.size
  obtain ⟨p, hp, hrest, hend⟩ := h.bytes
  have hsplit := io.ib.buf.window_append (i := io.ib.cur) (j := io.ib.cur + c) (k := io.ib.size)
    (by omega) hc
  have hlen : (io.ib.buf.window io.ib.cur (io.ib.cur + c)).length = c := by
    rw [Bytes.length_window _ (by omega)]
    omega
  rw [← hsplit, List.append_assoc] at hrest
  have hsame : SameFeed io.ib { io.ib with cur := io.ib.cur + c } := ⟨rfl, rfl, rfl, rfl, rfl⟩
  refine ⟨by rw [hrest, List.take_left' hlen], ?_, ?_⟩
  · rw [hrest, List.length_append, hlen]
    omega
  · refine ⟨h.live, h.fd, hc, hsize, p, f.same hsame hp, ?_, hend⟩
    rw [hrest, List.drop_left' hlen]

/-- The loop of `bread`. -/
theorem breadLoop (fuel : Nat) : ∀ (n : Nat) (acc : List UInt8) {io : Io δ}
    {rest : List UInt8}, f.Reads io rest ok → n ≤ fuel →
    (∃ io', Agecrypt.breadLoop fuel n acc io = some (none, io') ∧ f.Failed io io' ok) ∨
    ∃ io', Agecrypt.breadLoop fuel n acc io = some (some (acc ++ rest.take n), io') ∧
      Unharmed ch io io' ∧ f.Reads io' (rest.drop n) ok ∧ (rest.length < n → ok = true) := by
  induction fuel with
  | zero =>
    intro n acc io rest h hn
    obtain rfl : n = 0 := by omega
    exact .inr ⟨io, by simp [Agecrypt.breadLoop], .refl h.live, h, fun hlt => by omega⟩
  | succ fuel ih =>
    intro n acc io rest h hn
    rcases n with _ | n
    · exact .inr ⟨io, by simp [Agecrypt.breadLoop], .refl h.live, h, fun hlt => by omega⟩
    rw [Agecrypt.breadLoop]
    rcases h.breadRefill with
      ⟨io₁, hr, hfail⟩ | ⟨io₁, hr, hpass, rfl, hok, h₁⟩ | ⟨io₁, hr, hpass, h₁, hready⟩
    · exact .inl ⟨io₁, by rw [hr]; rfl, hfail⟩
    · refine .inr ⟨io₁, by rw [hr]; simp, hpass, ?_, fun _ => hok⟩
      rw [List.drop_nil]
      exact h₁
    rw [hr]
    simp only [Option.bind_eq_bind, Option.bind_some]
    rcases hready with hlt | ⟨heof, hcs, rfl, hok⟩
    swap
    · rw [if_pos ⟨by omega, heof⟩]
      refine .inr ⟨io₁, by simp, hpass, ?_, fun _ => hok⟩
      rw [List.drop_nil]
      exact h₁
    rw [if_neg (by omega)]
    obtain ⟨c, hc⟩ : ∃ c, c = min (io₁.ib.size - io₁.ib.cur) (n + 1) := ⟨_, rfl⟩
    obtain ⟨htake, hle, h₂⟩ := h₁.take (c := c) (by omega)
    have hsize := h₁.size
    rw [← hc, Bytes.load_eq _ (by omega), htake]
    simp only [Option.bind_some]
    have hsum : n + 1 = c + (n + 1 - c) := by omega
    have htt : rest.take (n + 1) = rest.take c ++ (rest.drop c).take (n + 1 - c) := by
      rw [← List.take_add, ← hsum]
    have hdd : (rest.drop c).drop (n + 1 - c) = rest.drop (n + 1) := by
      rw [List.drop_drop, ← hsum]
    have hstep : Unharmed ch io { io₁ with ib := { io₁.ib with cur := io₁.ib.cur + c } } :=
      hpass.buffer rfl
    rcases ih (n + 1 - c) (acc ++ rest.take c) h₂ (by omega) with
      ⟨io₂, hl, hfail⟩ | ⟨io₂, hl, hpass₂, h₃, hshort⟩
    · exact .inl ⟨io₂, hl, hstep.failed hfail⟩
    · rw [List.append_assoc, ← htt] at hl
      rw [hdd] at h₃
      refine .inr ⟨io₂, hl, hstep.trans hpass₂, h₃, ?_⟩
      intro hlt
      refine hshort ?_
      rw [List.length_drop]
      omega

/-- A look at the next byte.  On an empty buffer in front of the end of a
refused input it answers anything. -/
theorem peek (h : f.Reads io rest ok) (hp : probe io = some (true, io)) :
    (∃ io', bpeek io = some (.err, io') ∧ f.Failed io io' ok ∧ ch.ReadLost io.dev io'.dev) ∨
    (∃ a io', bpeek io = some (a, io') ∧ ok = false ∧ io.ib.cur = io.ib.size ∧
      rest.length < IOBUFSIZE ∧ io'.ib.size = USIZE - 2) ∨
    ∃ io', bpeek io = some (rest.head?.elim .eof .char, io') ∧ Unharmed ch io io' ∧
      f.Reads io' rest ok ∧ (io.ib.cur = io.ib.size → ok = true ∨ IOBUFSIZE ≤ rest.length) := by
  unfold bpeek
  rw [hp]
  simp only [Option.bind_eq_bind, Option.bind_some, not_true_eq_false, if_false]
  have hcur := h.cur
  have hsize := h.size
  by_cases hdone : io.ib.eof = true ∧ io.ib.cur = io.ib.size
  · obtain ⟨p, -, hrest, hend⟩ := h.bytes
    obtain ⟨hp, hok⟩ := hend hdone.1
    have hnil : rest = [] := by
      rw [hrest, hdone.2, Bytes.window_self, hp]
      rfl
    rw [if_pos hdone]
    exact .inr (.inr ⟨io, by rw [hnil]; rfl, .refl h.live, h, fun _ => .inl hok⟩)
  rw [if_neg hdone]
  by_cases hlt : io.ib.cur < io.ib.size
  · obtain ⟨htake, hle, -⟩ := h.take (c := 1) hlt
    obtain ⟨c, cs, rfl⟩ := List.exists_cons_of_length_pos hle
    rw [if_pos hlt, Bytes.load_eq _ (by omega), htake]
    exact .inr (.inr ⟨io, rfl, .refl h.live, h, fun hcs => by omega⟩)
  have hcs : io.ib.cur = io.ib.size := by omega
  have heof : io.ib.eof = false := by
    by_contra he
    exact hdone ⟨by simpa using he, hcs⟩
  obtain ⟨io₁, hdrop, hpass, h₁, hcur₁, hsize₁, heof₁⟩ := h.dropBuffer hcs
  rw [heof] at heof₁
  rw [if_neg hlt, hdrop]
  simp only [Option.bind_some]
  rcases h₁.fill hcur₁ hsize₁ heof₁ with
    ⟨io₂, hfill, hfail, hlost⟩ | ⟨io₂, hfill, -, hok, hlen⟩ |
    ⟨hok, k, io₂, hfill, hpass₂, hre, hnil, hset⟩
  · rw [hfill]
    exact .inl ⟨io₂, rfl, hpass.failed hfail, hpass.lost hlost⟩
  · rw [hfill]
    simp only [Option.bind_some]
    rw [Bytes.load_eq _ (by decide)]
    exact .inr (.inl ⟨_, _, rfl, hok, hcs, hlen, rfl⟩)
  rw [hfill]
  cases k with
  | zero =>
    obtain ⟨rfl, hok'⟩ := hnil rfl
    refine .inr (.inr ⟨_, rfl, (hpass.trans hpass₂).buffer rfl, ?_, fun _ => hok⟩)
    exact hset _ ⟨rfl, rfl, rfl, rfl, rfl⟩ rfl rfl (hre.cur.trans hcur₁) (hre.size.trans hsize₁)
      fun _ => rfl
  | succ k =>
    have h₂ := hset { io₂.ib with size := k + 1 } ⟨rfl, rfl, rfl, rfl, rfl⟩ rfl rfl
      (hre.cur.trans hcur₁) rfl fun he => by
        rw [hre.eof, heof₁] at he
        cases he
    have hzero : io₂.ib.cur = 0 := hre.cur.trans hcur₁
    obtain ⟨htake, hle, -⟩ := h₂.take (c := 1) (by simp only [hzero]; omega)
    simp only [hzero, Nat.zero_add] at htake
    obtain ⟨c, cs, rfl⟩ := List.exists_cons_of_length_pos hle
    simp only [Option.bind_some]
    rw [Bytes.load_eq _ (by decide), Nat.zero_add, htake]
    exact .inr (.inr ⟨_, rfl, (hpass.trans hpass₂).buffer rfl, h₂, fun _ => hok⟩)

end Flow.Reads

end Agecrypt
