import Agecrypt.Agec.Io

/-!
# Descriptors with arbitrary behaviour

`Chan δ` says how the calls of a system `δ` act on one input and one output
descriptor: what the input has still to deliver (`unread`), what the output
has accepted (`accepted`), and how many calls have failed so far (`fails`).
A read may deliver any number of bytes up to the request and a write may
accept any number, so nothing here depends on the schedule.

A system is `steady` when no read will fail, and no write either as long as
the size of the output stays in `room`.  Two facts then serve all results:
`readall` delivers exactly the next bytes of the input, and `writeall`
appends exactly its bytes to the output, or a call failed and the failure is
reported.
-/

namespace Agecrypt

/-- How `readall` of `n` bytes ends when no read fails. -/
def readEnd (n : Nat) (inp : List UInt8) : ReadEnd := if n ≤ inp.length then .full else .eof

/-- An input and an output descriptor of the system `δ`, and the laws of
the calls on them. -/
structure Chan (δ : Type) [Descr δ] where
  fi : Int
  fo : Int
  unread : δ → List UInt8
  accepted : δ → List UInt8
  draws : δ → Nat → Draw
  /-- The number of reads and writes that have failed. -/
  fails : δ → Nat
  /-- The states that the laws speak of. -/
  live : δ → Prop
  /-- Every allocation will succeed. -/
  allocates : δ → Prop
  steady : δ → Prop
  /-- A failed allocation leaves `errno` alone. -/
  quiet : Prop
  /-- The output sizes up to which a steady system accepts writes. -/
  room : Nat → Prop
  room_mono : ∀ {m n}, m ≤ n → room n → room m
  read_ok : ∀ {d n bs d'}, live d → 0 < n → Descr.ageread fi n d = (some bs, d') →
    bs.length ≤ n ∧ unread d = bs ++ unread d' ∧ (bs = [] → unread d = []) ∧
      accepted d' = accepted d ∧ draws d' = draws d ∧ Descr.strerror d' = Descr.strerror d ∧
      fails d' = fails d ∧ live d' ∧ (steady d → steady d') ∧ (allocates d → allocates d')
  read_fail : ∀ {d n d'}, live d → Descr.ageread fi n d = (none, d') →
    unread d' = unread d ∧ accepted d' = accepted d ∧ fails d < fails d' ∧ live d' ∧ ¬ steady d
  write_meant : ∀ {d bs}, live d → bs ≠ [] → ∃ r d', Descr.agewrite fo bs d = some (r, d')
  write_ok : ∀ {d bs k d'}, live d → bs ≠ [] → Descr.agewrite fo bs d = some (some k, d') →
    0 < k ∧ k ≤ bs.length ∧ accepted d' = accepted d ++ bs.take k ∧
      unread d' = unread d ∧ draws d' = draws d ∧ Descr.strerror d' = Descr.strerror d ∧
      fails d' = fails d ∧ live d' ∧ (steady d → steady d') ∧ (allocates d → allocates d')
  write_fail : ∀ {d bs d'}, live d → Descr.agewrite fo bs d = some (none, d') →
    unread d' = unread d ∧ fails d < fails d' ∧ live d' ∧
      ¬ (steady d ∧ room ((accepted d).length + bs.length))
  alloc_ok : ∀ {d n b d'}, live d → Descr.alloc n d = (b, d') →
    (allocates d → b = true) ∧ unread d' = unread d ∧ accepted d' = accepted d ∧
      draws d' = draws d ∧ (quiet ∨ b = true → Descr.strerror d' = Descr.strerror d) ∧
      fails d' = fails d ∧ live d' ∧ (steady d → steady d') ∧ (allocates d → allocates d')
  random_ok : ∀ {d n r d'}, live d → Descr.randombuf n d = (r, d') →
    r = (draws d 0).bytes n ∧ draws d' = (fun i => draws d (i + 1)) ∧
      unread d' = unread d ∧ accepted d' = accepted d ∧
      Descr.strerror d' = Descr.strerror d ∧ fails d' = fails d ∧ live d' ∧
      (steady d → steady d') ∧ (allocates d → allocates d')

namespace Chan

variable {δ : Type} [Descr δ] (ch : Chan δ)

/-- Steps in which no call failed. -/
structure Kept (d d' : δ) : Prop where
  live : ch.live d'
  draws : ch.draws d' = ch.draws d
  fails : ch.fails d' = ch.fails d
  steady : ch.steady d → ch.steady d'
  allocates : ch.allocates d → ch.allocates d'
  /-- A failed allocation may set `errno`. -/
  errno : ch.quiet ∨ ch.allocates d → Descr.strerror d' = Descr.strerror d

/-- Steps that ended with a failed read. -/
structure ReadLost (d d' : δ) : Prop where
  live : ch.live d'
  fails : ch.fails d < ch.fails d'
  unsteady : ¬ ch.steady d

variable {ch}

theorem Kept.refl {d : δ} (h : ch.live d) : ch.Kept d d :=
  ⟨h, rfl, rfl, id, id, fun _ => rfl⟩

theorem Kept.trans {d₁ d₂ d₃ : δ} (h : ch.Kept d₁ d₂) (h' : ch.Kept d₂ d₃) : ch.Kept d₁ d₃ :=
  ⟨h'.live, h'.draws.trans h.draws, h'.fails.trans h.fails, fun hs => h'.steady (h.steady hs),
    fun ha => h'.allocates (h.allocates ha),
    fun hq => (h'.errno (hq.imp_right h.allocates)).trans (h.errno hq)⟩

theorem Kept.lost {d₁ d₂ d₃ : δ} (h : ch.Kept d₁ d₂) (h' : ch.ReadLost d₂ d₃) :
    ch.ReadLost d₁ d₃ :=
  ⟨h'.live, h.fails ▸ h'.fails, fun hs => h'.unsteady (h.steady hs)⟩

/-- The system works and has memory. -/
structure Sound (ch : Chan δ) (d : δ) : Prop where
  live : ch.live d
  allocates : ch.allocates d

/-- Steps of a system with memory in which no call failed. -/
structure Calm (ch : Chan δ) (d d' : δ) : Prop where
  kept : ch.Kept d d'
  sound : ch.Sound d'
  errno : Descr.strerror d' = Descr.strerror d

theorem Kept.calm {d d' : δ} (h : ch.Kept d d') (hs : ch.Sound d) : ch.Calm d d' :=
  ⟨h, ⟨h.live, h.allocates hs.allocates⟩, h.errno (.inr hs.allocates)⟩

theorem Calm.refl {d : δ} (hs : ch.Sound d) : ch.Calm d d := (Kept.refl hs.live).calm hs

theorem Calm.trans {d₁ d₂ d₃ : δ} (h : ch.Calm d₁ d₂) (h' : ch.Calm d₂ d₃) : ch.Calm d₁ d₃ :=
  ⟨h.kept.trans h'.kept, h'.sound, h'.errno.trans h.errno⟩

theorem Calm.lost {d₁ d₂ d₃ : δ} (h : ch.Calm d₁ d₂) (h' : ch.ReadLost d₂ d₃) :
    ch.ReadLost d₁ d₃ := h.kept.lost h'

/-! ## One read -/

/-- What a read does: it fails, or it delivers a part of what is unread. -/
theorem read_cases {d : δ} (hl : ch.live d) {n : Nat} (hn : 0 < n) :
    (∃ d', Descr.ageread ch.fi n d = (none, d') ∧ ch.ReadLost d d' ∧
      ch.unread d' = ch.unread d ∧ ch.accepted d' = ch.accepted d) ∨
    ∃ bs d', Descr.ageread ch.fi n d = (some bs, d') ∧ ch.Kept d d' ∧ bs.length ≤ n ∧
      ch.unread d = bs ++ ch.unread d' ∧ (bs = [] → ch.unread d = []) ∧
      ch.accepted d' = ch.accepted d := by
  rcases h : Descr.ageread ch.fi n d with ⟨_ | bs, d'⟩
  · obtain ⟨hu, ha, hf, hl', hs⟩ := ch.read_fail hl h
    exact .inl ⟨d', rfl, ⟨hl', hf, hs⟩, hu, ha⟩
  · obtain ⟨hb, hu, he, ha, hd, her, hf, hl', hs, hal⟩ := ch.read_ok hl hn h
    exact .inr ⟨bs, d', rfl, ⟨hl', hd, hf, hs, hal, fun _ => her⟩, hb, hu, he, ha⟩

/-! ## `readall` -/

variable (ch) in
private theorem readallLoop_spec (fuel : Nat) : ∀ (n : Nat) (acc : List UInt8) (d : δ),
    ch.live d → n ≤ fuel →
    ∃ bs fin d', readallLoop ch.fi fuel n acc d = some ((acc ++ bs, fin), d') ∧
      ch.accepted d' = ch.accepted d ∧ ch.unread d = bs ++ ch.unread d' ∧ bs.length ≤ n ∧
      ((fin = .fail ∧ ch.ReadLost d d') ∨
        (ch.Kept d d' ∧ bs.length = n ∧ fin = .full) ∨
        (ch.Kept d d' ∧ bs.length < n ∧ fin = .eof ∧ ch.unread d' = [])) := by
  induction fuel with
  | zero =>
    intro n acc d hl hn
    obtain rfl : n = 0 := by omega
    exact ⟨[], .full, d, by simp [readallLoop], rfl, rfl, by simp,
      .inr (.inl ⟨.refl hl, rfl, rfl⟩)⟩
  | succ fuel ih =>
    intro n acc d hl hn
    rcases n with _ | n
    · exact ⟨[], .full, d, by simp [readallLoop], rfl, rfl, by simp,
        .inr (.inl ⟨.refl hl, rfl, rfl⟩)⟩
    rcases ch.read_cases hl (Nat.succ_pos n) with
      ⟨d', h, hlost, hu, ha⟩ | ⟨bs, d', h, hk, hb, hu, he, ha⟩
    · exact ⟨[], .fail, d', by simp [readallLoop, h], ha, by simp [hu], by simp,
        .inl ⟨rfl, hlost⟩⟩
    rcases bs with _ | ⟨b, bs⟩
    · exact ⟨[], .eof, d', by simp [readallLoop, h], ha, hu, by simp,
        .inr (.inr ⟨hk, by simp, rfl, by rw [hu] at he; simpa using he rfl⟩)⟩
    · simp only [List.length_cons] at hb
      obtain ⟨bs', fin, d'', h', ha', hu', hb', hcases⟩ :=
        ih (n + 1 - (b :: bs).length) (acc ++ b :: bs) d' hk.live
          (by simp only [List.length_cons]; omega)
      simp only [List.length_cons] at hb' hcases
      refine ⟨b :: bs ++ bs', fin, d'', ?_, ha'.trans ha, ?_, ?_, ?_⟩
      · rw [readallLoop, h]
        simpa using h'
      · rw [hu, hu', List.append_assoc]
      · simp only [List.length_append, List.length_cons]
        omega
      · simp only [List.length_append, List.length_cons]
        rcases hcases with ⟨hfin, hlost⟩ | ⟨hk', hlen, hfin⟩ | ⟨hk', hlen, hfin, hend⟩
        · exact .inl ⟨hfin, hk.lost hlost⟩
        · exact .inr (.inl ⟨hk.trans hk', by omega, hfin⟩)
        · exact .inr (.inr ⟨hk.trans hk', by omega, hfin, hend⟩)

/-- `readall` reports a failed read, or it delivers the next `n` bytes of
the input as far as there are any. -/
theorem readall_spec {d : δ} (hl : ch.live d) (n : Nat) :
    ∃ bs fin d', readall ch.fi n d = some ((bs, fin), d') ∧ ch.accepted d' = ch.accepted d ∧
      ((fin = .fail ∧ ch.ReadLost d d' ∧ bs.length ≤ n ∧ ch.unread d = bs ++ ch.unread d') ∨
        (ch.Kept d d' ∧ bs = (ch.unread d).take n ∧ ch.unread d' = (ch.unread d).drop n ∧
          fin = readEnd n (ch.unread d))) := by
  obtain ⟨bs, fin, d', h, ha, hu, hb, hcases⟩ := readallLoop_spec ch n n [] d hl (Nat.le_refl n)
  refine ⟨bs, fin, d', by simpa [readall] using h, ha, ?_⟩
  rcases hcases with ⟨hfin, hlost⟩ | ⟨hk, hlen, hfin⟩ | ⟨hk, hlen, hfin, hend⟩
  · exact .inl ⟨hfin, hlost, hb, hu⟩
  · refine .inr ⟨hk, ?_, ?_, ?_⟩
    · rw [hu, ← hlen, List.take_left]
    · rw [hu, ← hlen, List.drop_left]
    · rw [hfin, readEnd, hu, if_pos (by rw [List.length_append]; omega)]
  · rw [hend, List.append_nil] at hu
    refine .inr ⟨hk, ?_, ?_, ?_⟩
    · rw [hu, List.take_of_length_le (by omega)]
    · rw [hend, hu, List.drop_of_length_le (by omega)]
    · rw [hfin, readEnd, hu, if_neg (by omega)]

/-! ## `writeall` -/

private theorem writeallLoop_spec (fuel : Nat) : ∀ (bs : List UInt8) (d : δ),
    ch.live d → bs.length ≤ fuel →
    ∃ ok d', writeallLoop ch.fo fuel bs d = some (ok, d') ∧ ch.unread d' = ch.unread d ∧
      ch.live d' ∧
      ((ok = false ∧ ch.fails d < ch.fails d' ∧
          ¬ (ch.steady d ∧ ch.room ((ch.accepted d).length + bs.length))) ∨
        (ok = true ∧ ch.Kept d d' ∧ ch.accepted d' = ch.accepted d ++ bs)) := by
  induction fuel with
  | zero =>
    intro bs d hl hb
    obtain rfl : bs = [] := List.length_eq_zero_iff.mp (by omega)
    exact ⟨true, d, by simp [writeallLoop], rfl, hl, .inr ⟨rfl, .refl hl, by simp⟩⟩
  | succ fuel ih =>
    intro bs d hl hb
    rcases bs with _ | ⟨b, bs⟩
    · exact ⟨true, d, by simp [writeallLoop], rfl, hl, .inr ⟨rfl, .refl hl, by simp⟩⟩
    obtain ⟨r, d', h⟩ := ch.write_meant hl (List.cons_ne_nil b bs)
    rcases r with _ | k
    · obtain ⟨hu, hf, hl', hs⟩ := ch.write_fail hl h
      exact ⟨false, d', by simp [writeallLoop, h], hu, hl', .inl ⟨rfl, hf, hs⟩⟩
    · obtain ⟨hk, hkb, ha, hu, hd, her, hf, hl', hs, hal⟩ := ch.write_ok hl (by simp) h
      obtain ⟨k, rfl⟩ : ∃ k', k = k' + 1 := ⟨k - 1, by omega⟩
      simp only [List.length_cons] at hb hkb
      obtain ⟨ok, d'', h', hu', hl'', hcases⟩ := ih ((b :: bs).drop (k + 1)) d' hl'
        (by simp only [List.length_drop, List.length_cons]; omega)
      have hkept : ch.Kept d d' := ⟨hl', hd, hf, hs, hal, fun _ => her⟩
      refine ⟨ok, d'', by simpa [writeallLoop, h] using h', hu'.trans hu, hl'', ?_⟩
      rcases hcases with ⟨hok, hf', hn⟩ | ⟨hok, hk', ha'⟩
      · refine .inl ⟨hok, hf ▸ hf', fun ⟨hst, hroom⟩ => hn ⟨hs hst, ?_⟩⟩
        refine ch.room_mono (Nat.le_of_eq ?_) hroom
        simp only [ha, List.length_append, List.length_take, List.length_drop, List.length_cons]
        omega
      · refine .inr ⟨hok, hkept.trans hk', ?_⟩
        rw [ha', ha, List.append_assoc, List.take_append_drop]

/-- `writeall` reports a failed write, or its bytes are at the end of the
output. -/
theorem writeall_spec {d : δ} (hl : ch.live d) (bs : List UInt8) :
    ∃ ok d', writeall ch.fo bs d = some (ok, d') ∧ ch.unread d' = ch.unread d ∧ ch.live d' ∧
      ((ok = false ∧ ch.fails d < ch.fails d' ∧
          ¬ (ch.steady d ∧ ch.room ((ch.accepted d).length + bs.length))) ∨
        (ok = true ∧ ch.Kept d d' ∧ ch.accepted d' = ch.accepted d ++ bs)) :=
  writeallLoop_spec bs.length bs d hl (Nat.le_refl _)

end Chan

end Agecrypt
