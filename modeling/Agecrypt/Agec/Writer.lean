import Agecrypt.Agec.Channel
import Agecrypt.Agec.Machine

/-!
# The output buffer writes a `Snk`

The bytes in an `Obuf` and those that the descriptor has accepted are a
`Snk`, and `bwrite`, `bflush` and `writeall` do on the buffer what they do
on the `Snk`.  A write may fail; then the call reports it.
-/

namespace Agecrypt

variable {δ : Type} [Descr δ] {ch : Chan δ}

/-! ## Blocks of raw bytes -/

theorem armorBlocks_short (fuel : Nat) {raw : List UInt8} (h : raw.length < IOABUFRAWSIZE) :
    armorBlocks fuel raw = ([], raw) := by
  cases fuel with
  | zero => rfl
  | succ fuel => rw [armorBlocks, if_pos h]

theorem armorBlocks_block (fuel : Nat) {blk : List UInt8} (raw : List UInt8)
    (hb : blk.length = IOABUFRAWSIZE) :
    armorBlocks (fuel + 1) (blk ++ raw) =
      (base64encode blk true ++ (armorBlocks fuel raw).1, (armorBlocks fuel raw).2) := by
  rw [armorBlocks, if_neg (by rw [List.length_append]; omega), ← hb, List.drop_left,
    List.take_left]

/-- A bound beyond the length changes nothing. -/
theorem armorBlocks_eq (n : Nat) : ∀ (m : Nat) (raw : List UInt8), raw.length ≤ n →
    raw.length ≤ m → armorBlocks n raw = armorBlocks m raw := by
  have hpos : 0 < IOABUFRAWSIZE := by decide
  induction n with
  | zero =>
    intro m raw hn _
    rw [armorBlocks_short m (by omega)]
    rfl
  | succ n ih =>
    intro m raw hn hm
    rcases Nat.lt_or_ge raw.length IOABUFRAWSIZE with hlt | hge
    · rw [armorBlocks_short _ hlt, armorBlocks_short _ hlt]
    obtain ⟨m, rfl⟩ : ∃ m', m = m' + 1 := ⟨m - 1, by omega⟩
    have hd : (raw.drop IOABUFRAWSIZE).length = raw.length - IOABUFRAWSIZE := List.length_drop
    rw [armorBlocks, armorBlocks, if_neg (by omega), if_neg (by omega),
      ih m _ (by omega) (by omega)]

namespace Snk

/-- Bytes that leave room in the block are held. -/
theorem bwrite_held {k : Snk} (harm : k.isarmor = true) {bs : List UInt8}
    (h : k.held.length + bs.length < IOABUFRAWSIZE) :
    k.bwrite bs = { k with held := k.held ++ bs } := by
  rw [bwrite, if_pos harm, armorBlocks_short _ (by rwa [List.length_append]), List.append_nil]

/-- The first `c` bytes fill the block. -/
theorem bwrite_block {k : Snk} (harm : k.isarmor = true) {bs : List UInt8} {c : Nat}
    (hfull : k.held.length + c = IOABUFRAWSIZE) (hc : c ≤ bs.length) :
    k.bwrite bs =
      bwrite (bs.drop c) ⟨true, k.sent ++ base64encode (k.held ++ bs.take c) true, []⟩ := by
  have hpos : 0 < IOABUFRAWSIZE := by decide
  have hblk : (k.held ++ bs.take c).length = IOABUFRAWSIZE := by
    rw [List.length_append, List.length_take]
    omega
  have hsplit : k.held ++ bs = (k.held ++ bs.take c) ++ bs.drop c := by
    rw [List.append_assoc, List.take_append_drop]
  obtain ⟨m, hm⟩ : ∃ m, (k.held ++ bs).length = m + 1 :=
    ⟨(k.held ++ bs).length - 1, by rw [List.length_append]; omega⟩
  have hm' : (bs.drop c).length ≤ m := by
    rw [hsplit, List.length_append] at hm
    omega
  rw [bwrite, if_pos harm, bwrite, if_pos rfl, hm]
  simp only [List.nil_append]
  rw [hsplit, armorBlocks_block m _ hblk, armorBlocks_eq _ m _ (Nat.le_refl _) hm']
  simp only [harm, List.append_assoc]

theorem length_sent_bwrite (bs : List UInt8) (k : Snk) :
    k.sent.length ≤ (k.bwrite bs).sent.length := by
  unfold bwrite
  simp only
  split
  · simp
  · split <;> simp

end Snk

/-! ## The relation -/

/-- The capacity of the buffer. -/
def Obuf.cap (ob : Obuf) : Nat := if ob.isarmor then IOABUFRAWSIZE else IOBUFSIZE

structure SnkRel (ch : Chan δ) (io : Io δ) (k : Snk) : Prop where
  fd : io.ob.fd = ch.fo
  isarmor : io.ob.isarmor = k.isarmor
  cur : io.ob.cur < io.ob.cap
  held : io.ob.buf.window 0 io.ob.cur = k.held
  sent : ch.accepted io.dev = k.sent

/-- Only the output buffer and the output changed. -/
structure Wrote (ch : Chan δ) (io io' : Io δ) : Prop where
  live : ch.live io'.dev
  unread : ch.unread io'.dev = ch.unread io.dev
  ib : io'.ib = io.ib
  ebuf : io'.ebuf = io.ebuf
  data : io'.data = io.data
  fd : io'.ob.fd = io.ob.fd
  isarmor : io'.ob.isarmor = io.ob.isarmor
  cur : io.ob.cur < io.ob.cap → io'.ob.cur < io'.ob.cap

namespace Wrote

theorem refl {io : Io δ} (hl : ch.live io.dev) : Wrote ch io io :=
  ⟨hl, rfl, rfl, rfl, rfl, rfl, rfl, id⟩

theorem trans {io₁ io₂ io₃ : Io δ} (h : Wrote ch io₁ io₂) (h' : Wrote ch io₂ io₃) :
    Wrote ch io₁ io₃ :=
  ⟨h'.live, h'.unread.trans h.unread, h'.ib.trans h.ib, h'.ebuf.trans h.ebuf,
    h'.data.trans h.data, h'.fd.trans h.fd, h'.isarmor.trans h.isarmor, fun hc => h'.cur (h.cur hc)⟩

end Wrote

/-- What a call on the output buffer did: a write failed and the call says
so, or the buffer is now `k`. -/
def Outcome (ch : Chan δ) (io : Io δ) (k : Snk) (ok : Bool) (io' : Io δ) : Prop :=
  (ok = false ∧ ch.fails io.dev < ch.fails io'.dev ∧
      ¬ (ch.steady io.dev ∧ ch.room k.sent.length)) ∨
    (ok = true ∧ ch.Kept io.dev io'.dev ∧ SnkRel ch io' k)

theorem SnkRel.cap_le {io : Io δ} {k : Snk} (h : SnkRel ch io k) :
    io.ob.cur < IOABUFRAWSIZE := by
  have hc := h.cur
  have hle : IOBUFSIZE ≤ IOABUFRAWSIZE := by decide
  unfold Obuf.cap at hc
  split at hc <;> omega

theorem SnkRel.length_held {io : Io δ} {k : Snk} (h : SnkRel ch io k) :
    k.held.length = io.ob.cur := by
  have hc := h.cap_le
  rw [← h.held, Bytes.length_window _ (by omega)]
  omega

theorem cap_pos (ob : Obuf) : 0 < ob.cap := by
  unfold Obuf.cap
  split <;> decide

/-! ## The calls -/

/-- Write `bs` and empty the buffer. -/
private theorem flush_spec (bs : List UInt8) (io : Io δ) (hl : ch.live io.dev)
    (hfd : io.ob.fd = ch.fo) :
    ∃ ok d', writeall io.ob.fd bs io.dev = some (ok, d') ∧
      Wrote ch io { io with ob := { io.ob with cur := 0 }, dev := d' } ∧
      Outcome ch io ⟨io.ob.isarmor, ch.accepted io.dev ++ bs, []⟩ ok
        { io with ob := { io.ob with cur := 0 }, dev := d' } := by
  obtain ⟨ok, d', h, hu, hl', hcases⟩ := ch.writeall_spec hl bs
  refine ⟨ok, d', by rw [hfd, h], ⟨hl', hu, rfl, rfl, rfl, rfl, rfl, fun _ => cap_pos _⟩, ?_⟩
  rcases hcases with ⟨hok, hf, hn⟩ | ⟨hok, hk, ha⟩
  · exact .inl ⟨hok, hf, by rwa [List.length_append]⟩
  · exact .inr ⟨hok, hk, hfd, rfl, cap_pos _, by rw [Bytes.window_self], ha⟩

theorem bflush_spec {io : Io δ} {k : Snk} (hl : ch.live io.dev) (hr : SnkRel ch io k) :
    ∃ ok io', bflush io = some (ok, io') ∧ Wrote ch io io' ∧ Outcome ch io k.bflush ok io' := by
  have hcap := hr.cap_le
  have hlen := hr.length_held
  rcases Nat.eq_zero_or_pos io.ob.cur with h0 | hpos
  · have hnil : k.held = [] := List.length_eq_zero_iff.mp (by omega)
    have hk : k.bflush = k := by
      simp [Snk.bflush, Snk.flushed, hnil]
      rw [← hnil]
    refine ⟨true, io, ?_, .refl hl, .inr ⟨rfl, .refl hl, by rwa [hk]⟩⟩
    unfold bflush aflush
    simp [h0]
  have hne : k.held ≠ [] := by
    intro h
    rw [h, List.length_nil] at hlen
    omega
  have hload : io.ob.buf.load 0 io.ob.cur = some k.held := by
    rw [Bytes.load_eq _ (by omega), Nat.zero_add, hr.held]
  have hfl : k.flushed = if k.isarmor then base64encode k.held true else k.held :=
    if_neg hne
  obtain ⟨ok, d', h, hw, ho⟩ := flush_spec k.flushed io hl hr.fd
  refine ⟨ok, _, ?_, hw, ?_⟩
  · rw [hfl] at h
    by_cases ha : k.isarmor = true
    · rw [if_pos ha] at h
      rw [bflush, if_pos (hr.isarmor.trans ha), aflush, if_neg (by omega), hload]
      simp [h]
    · rw [if_neg ha] at h
      rw [bflush, if_neg (by rw [hr.isarmor]; exact ha), if_neg (by omega), hload]
      simp [h]
  · rw [hr.isarmor, hr.sent] at ho
    exact ho

theorem writeall_spec (bs : List UInt8) {io : Io δ} {k : Snk} (hl : ch.live io.dev)
    (hr : SnkRel ch io k) :
    ∃ ok d', writeall io.ob.fd bs io.dev = some (ok, d') ∧ Wrote ch io { io with dev := d' } ∧
      Outcome ch io (k.writeall bs) ok { io with dev := d' } := by
  obtain ⟨ok, d', h, hu, hl', hcases⟩ := ch.writeall_spec hl bs
  refine ⟨ok, d', by rw [hr.fd, h], ⟨hl', hu, rfl, rfl, rfl, rfl, rfl, id⟩, ?_⟩
  rw [hr.sent] at hcases
  rcases hcases with ⟨hok, hf, hn⟩ | ⟨hok, hk, ha⟩
  · exact .inl ⟨hok, hf, by rwa [Snk.writeall, List.length_append]⟩
  · exact .inr ⟨hok, hk, hr.fd, hr.isarmor, hr.cur, hr.held, ha⟩

/-- Appending to the buffer what fits. -/
private theorem store_held {io : Io δ} {k : Snk} (hr : SnkRel ch io k) (bs : List UInt8)
    (hfit : io.ob.cur + bs.length ≤ IOABUFRAWSIZE) :
    ∃ buf, io.ob.buf.store io.ob.cur bs = some buf ∧
      buf.window 0 (io.ob.cur + bs.length) = k.held ++ bs := by
  obtain ⟨buf, hbuf⟩ := io.ob.buf.store_isSome io.ob.cur bs hfit
  exact ⟨buf, hbuf, by rw [Bytes.window_store_append hbuf (Nat.zero_le _), hr.held]⟩

/-- The loop of `awrite`. -/
private theorem awriteLoop_spec (fuel : Nat) : ∀ (bs : List UInt8) {io : Io δ} {k : Snk},
    ch.live io.dev → SnkRel ch io k → k.isarmor = true → bs.length < fuel →
    ∃ ok io', awriteLoop fuel bs io = some (ok, io') ∧ Wrote ch io io' ∧
      Outcome ch io (k.bwrite bs) ok io' := by
  induction fuel with
  | zero => intro bs io k _ _ _ hn; omega
  | succ fuel ih =>
    intro bs io k hl hr harm hn
    have hcap := hr.cap_le
    have hlen := hr.length_held
    have hio : io.ob.isarmor = true := hr.isarmor.trans harm
    rcases bs with _ | ⟨b, bs⟩
    · refine ⟨true, io, by simp [awriteLoop], .refl hl, .inr ⟨rfl, .refl hl, ?_⟩⟩
      rw [Snk.bwrite_held harm (by simp only [List.length_nil]; omega), List.append_nil]
      exact hr
    rw [awriteLoop]
    obtain ⟨c, hc⟩ : ∃ c, c = min (IOABUFRAWSIZE - io.ob.cur) (b :: bs).length := ⟨_, rfl⟩
    simp only [← hc, Option.bind_eq_bind]
    have hpos : 0 < (b :: bs).length := by simp
    have htake : ((b :: bs).take c).length = c := by
      rw [List.length_take]
      omega
    obtain ⟨buf, hbuf, hwin⟩ := store_held hr ((b :: bs).take c) (by omega)
    rw [htake] at hwin
    rw [hbuf]
    simp only [Option.bind_some]
    have hdrop : ((b :: bs).drop c).length = (b :: bs).length - c := List.length_drop
    by_cases hfull : io.ob.cur + c = IOABUFRAWSIZE
    · rw [if_pos hfull]
      let io₁ : Io δ := { io with ob := { io.ob with buf, cur := io.ob.cur + c } }
      obtain ⟨ok, d', h, hw, ho⟩ := flush_spec
        (base64encode (k.held ++ (b :: bs).take c) true) io₁ (show ch.live io₁.dev from hl) hr.fd
      have hflush : aflush io₁ =
          some (ok, { io₁ with ob := { io₁.ob with cur := 0 }, dev := d' }) := by
        have hload : io₁.ob.buf.load 0 io₁.ob.cur = some (k.held ++ (b :: bs).take c) := by
          rw [Bytes.load_eq _ (by simp only [io₁]; omega), Nat.zero_add]
          exact congrArg some hwin
        rw [aflush, if_neg (by simp only [io₁]; omega), hload]
        simp [h]
      rw [show aflush { io with ob := { io.ob with buf, cur := io.ob.cur + c } } = _ from hflush]
      have hw₁ : Wrote ch io { io₁ with ob := { io₁.ob with cur := 0 }, dev := d' } :=
        ⟨hw.live, hw.unread, rfl, rfl, rfl, rfl, rfl, fun _ => cap_pos _⟩
      obtain ⟨k₁, hk₁⟩ : ∃ k₁ : Snk, k₁ = ⟨true, k.sent ++
          base64encode (k.held ++ (b :: bs).take c) true, []⟩ := ⟨_, rfl⟩
      have hmach : k.bwrite (b :: bs) = k₁.bwrite ((b :: bs).drop c) := by
        rw [hk₁]
        exact Snk.bwrite_block harm (by omega) (by omega)
      have hk₁' : (⟨io₁.ob.isarmor, ch.accepted io₁.dev ++
          base64encode (k.held ++ (b :: bs).take c) true, []⟩ : Snk) = k₁ := by
        rw [hk₁, ← hr.sent]
        simp only [io₁, hio]
      rw [hk₁'] at ho
      rw [hmach]
      rcases ho with ⟨rfl, hf, hns⟩ | ⟨rfl, hk, hr₁⟩
      · refine ⟨false, _, rfl, hw₁, .inl ⟨rfl, hf, fun ⟨hst, hroom⟩ => hns ⟨hst, ?_⟩⟩⟩
        refine ch.room_mono ?_ hroom
        exact Snk.length_sent_bwrite _ k₁
      · obtain ⟨ok, io', h', hw', ho'⟩ := ih ((b :: bs).drop c) hk.live hr₁ (by rw [hk₁])
          (by omega)
        refine ⟨ok, io', h', hw₁.trans hw', ?_⟩
        rcases ho' with ⟨hok, hf, hns⟩ | ⟨hok, hk', hr'⟩
        · exact .inl ⟨hok, hk.fails ▸ hf, fun ⟨hst, hroom⟩ => hns ⟨hk.steady hst, hroom⟩⟩
        · exact .inr ⟨hok, hk.trans hk', hr'⟩
    · rw [if_neg hfull]
      have hcb : c = (b :: bs).length := by omega
      have hnil : (b :: bs).drop c = [] := List.drop_of_length_le (by omega)
      have htk : (b :: bs).take c = b :: bs := List.take_of_length_le (by omega)
      rw [htk] at hwin
      refine ⟨true, { io with ob := { io.ob with buf, cur := io.ob.cur + c } },
        by rw [hnil]; simp [awriteLoop], ⟨hl, rfl, rfl, rfl, rfl, rfl, rfl, fun _ => ?_⟩,
        .inr ⟨rfl, .refl hl, ?_⟩⟩
      · simp only [Obuf.cap, hio, if_true]
        omega
      rw [Snk.bwrite_held harm (by omega)]
      refine ⟨hr.fd, hr.isarmor, ?_, hwin, hr.sent⟩
      simp only [Obuf.cap, hio, if_true]
      omega

/-- `bwrite` does what it does on the machine. -/
theorem bwrite_spec (bs : List UInt8) {io : Io δ} {k : Snk} (hl : ch.live io.dev)
    (hr : SnkRel ch io k) :
    ∃ ok io', bwrite bs io = some (ok, io') ∧ Wrote ch io io' ∧
      Outcome ch io (k.bwrite bs) ok io' := by
  by_cases harm : k.isarmor = true
  · rw [bwrite, if_pos (hr.isarmor.trans harm), awrite]
    exact awriteLoop_spec _ bs hl hr harm (Nat.lt_succ_self _)
  have hno : ¬ io.ob.isarmor = true := by rwa [hr.isarmor]
  have hcur : io.ob.cur < IOBUFSIZE := by simpa [Obuf.cap, hno] using hr.cur
  have hlen := hr.length_held
  have hle : IOBUFSIZE ≤ IOABUFRAWSIZE := by decide
  rw [bwrite, if_neg hno]
  obtain ⟨c, hc⟩ : ∃ c, c = min (IOBUFSIZE - io.ob.cur) bs.length := ⟨_, rfl⟩
  simp only [← hc, Option.bind_eq_bind]
  have htake : (bs.take c).length = c := by
    rw [List.length_take]
    omega
  obtain ⟨buf, hbuf, hwin⟩ := store_held hr (bs.take c) (by omega)
  rw [htake] at hwin
  rw [hbuf]
  simp only [Option.bind_some]
  by_cases hfit : IOBUFSIZE - io.ob.cur > bs.length
  · rw [if_pos hfit]
    have htk : bs.take c = bs := List.take_of_length_le (by omega)
    rw [htk] at hwin
    have hcap : io.ob.cur + c < (if io.ob.isarmor then IOABUFRAWSIZE else IOBUFSIZE) := by
      simp only [hno, Bool.false_eq_true, if_false]
      omega
    refine ⟨true, _, rfl, ⟨hl, rfl, rfl, rfl, rfl, rfl, rfl, fun _ => hcap⟩,
      .inr ⟨rfl, .refl hl, ?_⟩⟩
    have hshort : (k.held ++ bs).length < IOBUFSIZE := by
      rw [List.length_append]
      omega
    rw [Snk.bwrite, if_neg harm, if_pos hshort]
    exact ⟨hr.fd, hr.isarmor, hcap, hwin, hr.sent⟩
  · rw [if_neg hfit]
    let io₁ : Io δ := { io with ob := { io.ob with buf, cur := io.ob.cur + c } }
    obtain ⟨ok, d', h, hw, ho⟩ := flush_spec (k.held ++ bs.take c) io₁
      (show ch.live io₁.dev from hl) hr.fd
    have hflush : bflush io₁ =
        some (ok, { io₁ with ob := { io₁.ob with cur := 0 }, dev := d' }) := by
      have hload : io₁.ob.buf.load 0 io₁.ob.cur = some (k.held ++ bs.take c) := by
        rw [Bytes.load_eq _ (by simp only [io₁]; omega), Nat.zero_add]
        exact congrArg some hwin
      rw [bflush, if_neg (by exact hno), if_neg (by simp only [io₁]; omega), hload]
      simp [h]
    rw [show bflush { io with ob := { io.ob with buf, cur := io.ob.cur + c } } = _ from hflush]
    have hw₁ : Wrote ch io { io₁ with ob := { io₁.ob with cur := 0 }, dev := d' } :=
      ⟨hw.live, hw.unread, rfl, rfl, rfl, rfl, rfl, fun _ => cap_pos _⟩
    have hlong : ¬ (k.held ++ bs).length < IOBUFSIZE := by
      rw [List.length_append]
      omega
    have hmach : k.bwrite bs =
        Snk.writeall (bs.drop c) ⟨io.ob.isarmor, ch.accepted io.dev ++ (k.held ++ bs.take c),
          []⟩ := by
      rw [Snk.bwrite, if_neg harm, if_neg hlong, Snk.writeall]
      simp only [List.append_assoc, List.take_append_drop, hr.isarmor, hr.sent]
    rw [hmach]
    rcases ho with ⟨rfl, hf, hns⟩ | ⟨rfl, hk, hr₁⟩
    · refine ⟨false, _, rfl, hw₁, .inl ⟨rfl, hf, fun ⟨hst, hroom⟩ => hns ⟨hst, ?_⟩⟩⟩
      refine ch.room_mono ?_ hroom
      simp only [Snk.writeall, io₁, List.length_append]
      omega
    · obtain ⟨ok, d'', h', hw', ho'⟩ := writeall_spec (bs.drop c) hk.live hr₁
      refine ⟨ok, _, ?_, hw₁.trans hw', ?_⟩
      · simp only [Option.bind_some, if_true]
        rw [show writeall io.ob.fd (bs.drop c) d' = some (ok, d'') from h']
        rfl
      · rcases ho' with ⟨hok, hf, hns⟩ | ⟨hok, hk', hr'⟩
        · exact .inl ⟨hok, hk.fails ▸ hf, fun ⟨hst, hroom⟩ => hns ⟨hk.steady hst, hroom⟩⟩
        · exact .inr ⟨hok, hk.trans hk', hr'⟩

end Agecrypt
