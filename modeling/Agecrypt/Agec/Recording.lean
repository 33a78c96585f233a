import Agecrypt.Agec.Device
import Agecrypt.Agec.Stable

/-!
# The recorded header

While an `Ibuf` records, the bytes that have left the buffer are in `record`
and those that the caller has taken since are in front of `cur`.  The two
together are what the caller has taken, as long as no allocation failed; a
failure is kept in `recfail`.

`recstop` looks at `recfail` before its own last append, so a failure of
that one is not seen.
-/

namespace Agecrypt

variable {δ : Type} [Descr δ]

/-! ## Appending to the record -/

theorem le_growCap {need ncap : Nat} (fuel : Nat) : ∀ {cap : Nat},
    growCap need fuel cap = some ncap → need ≤ ncap := by
  induction fuel with
  | zero =>
    intro cap h
    rw [growCap] at h
    cases h
  | succ fuel ih =>
    intro cap h
    rw [growCap] at h
    split at h
    · simp only at h
      split at h
      · cases h
      · exact ih h
    · rename_i hle
      rw [← Option.some.inj h]
      exact Nat.le_of_not_lt hle

/-- The record has no room for `n` more bytes and cannot be made larger. -/
def GrowFails (n : Nat) (io : Io δ) : Prop :=
  io.ib.record.capacity < io.ib.record.buf.length + n ∧
    ∀ ncap, growCap (io.ib.record.buf.length + n) 64 io.ib.record.capacity = some ncap →
      (Descr.alloc ncap io.dev).1 = false

/-- An append changes the record and the failure flag only. -/
structure Appended (ib ib' : Ibuf) : Prop where
  ib : ib' = { ib with record := ib'.record, recfail := ib'.recfail }
  fits : ib'.record.buf.length ≤ ib'.record.capacity

/-- `recgrow` appends, or it sets the failure flag and leaves the bytes. -/
theorem recgrow_cases (src : List UInt8) (io : Io δ)
    (hfits : io.ib.record.buf.length ≤ io.ib.record.capacity) :
    Appended io.ib (recgrow src io).ib ∧
      ((¬ GrowFails src.length io ∧ (recgrow src io).ib.recfail = io.ib.recfail ∧
          (recgrow src io).ib.record.buf = io.ib.record.buf ++ src) ∨
        (GrowFails src.length io ∧ (recgrow src io).ib.recfail ≠ none ∧
          (recgrow src io).ib.record = io.ib.record)) := by
  unfold recgrow
  simp only
  split
  · rename_i hneed
    rcases hg : growCap (io.ib.record.buf.length + src.length) 64 io.ib.record.capacity with
      _ | ncap
    · simp only
      refine ⟨⟨rfl, hfits⟩, .inr ⟨⟨hneed, ?_⟩, Option.some_ne_none _, trivial⟩⟩
      intro ncap h
      rw [hg] at h
      cases h
    have hle := le_growCap 64 hg
    rcases ha : Descr.alloc ncap io.dev with ⟨b, dev⟩
    cases b with
    | false =>
      simp only [ha]
      refine ⟨⟨rfl, hfits⟩, .inr ⟨⟨hneed, ?_⟩, Option.some_ne_none _, trivial⟩⟩
      intro ncap' h
      rw [hg] at h
      rw [← Option.some.inj h, ha]
    | true =>
      simp only [ha]
      refine ⟨⟨rfl, ?_⟩, .inl ⟨?_, trivial, trivial⟩⟩
      · show (io.ib.record.buf ++ src).length ≤ ncap
        rw [List.length_append]
        exact hle
      · intro hno
        have := hno.2 ncap hg
        rw [ha] at this
        cases this
  · rename_i hroom
    refine ⟨⟨rfl, ?_⟩, .inl ⟨fun hno => hroom hno.1, rfl, rfl⟩⟩
    show (io.ib.record.buf ++ src).length ≤ io.ib.record.capacity
    rw [List.length_append]
    exact Nat.le_of_not_lt hroom

/-- Unless it sets the failure flag, `recappend` appends. -/
theorem recappend_cases (src : List UInt8) (io : Io δ)
    (hfits : io.ib.record.buf.length ≤ io.ib.record.capacity) :
    Appended io.ib (recappend src io).ib ∧
      ((recappend src io).ib.recfail = none → io.ib.recfail = none ∧
        (recappend src io).ib.record.buf = io.ib.record.buf ++ src) := by
  have hgrow : ∀ io₁ : Io δ, io₁.ib.record.buf.length ≤ io₁.ib.record.capacity →
      Appended io₁.ib (recgrow src io₁).ib ∧
        ((recgrow src io₁).ib.recfail = none → io₁.ib.recfail = none ∧
          (recgrow src io₁).ib.record.buf = io₁.ib.record.buf ++ src) := by
    intro io₁ hfits₁
    obtain ⟨happ, ⟨-, hfail, hbuf⟩ | ⟨-, hfail, -⟩⟩ := recgrow_cases src io₁ hfits₁
    · exact ⟨happ, fun h => ⟨hfail.symm.trans h, hbuf⟩⟩
    · exact ⟨happ, fun h => absurd h hfail⟩
  unfold recappend
  split
  · rename_i hfail
    refine ⟨⟨rfl, hfits⟩, fun h => ?_⟩
    rw [h] at hfail
    cases hfail
  split
  · rcases Descr.alloc RECINITLEN io.dev with ⟨b, dev⟩
    rename_i hfirst
    cases b with
    | false => exact ⟨⟨rfl, hfits⟩, fun h => by cases h⟩
    | true =>
      have hfits₁ : io.ib.record.buf.length ≤ RECINITLEN := by
        rw [hfirst.2] at hfits
        exact Nat.le_trans hfits (Nat.zero_le _)
      obtain ⟨happ, hbuf⟩ := hgrow { io with
        ib := { io.ib with record := { io.ib.record with capacity := RECINITLEN } }, dev } hfits₁
      exact ⟨⟨happ.ib, happ.fits⟩, hbuf⟩
  · exact hgrow io hfits

/-! ## Refills leave the record alone -/

section

variable {ib : Ibuf}

theorem areadBlock_refilled (raw : List UInt8) {io : Io δ} (h : Refilled ib io.ib) :
    Ends (fun io' => Refilled ib io'.ib) (areadBlock raw io) := by
  have hkeep : ∀ {ib' : Ibuf}, Refilled io.ib ib' → Refilled ib ib' := by
    intro ib' h'
    exact ⟨h'.cur.trans h.cur, h'.size.trans h.size, h'.eof.trans h.eof,
      h'.isarmor.trans h.isarmor, h'.recording.trans h.recording, h'.recfail.trans h.recfail,
      h'.record.trans h.record⟩
  unfold areadBlock
  simp only
  split
  · exact .some (hkeep ⟨rfl, rfl, rfl, rfl, rfl, rfl, rfl⟩)
  split
  · exact .some (hkeep ⟨rfl, rfl, rfl, rfl, rfl, rfl, rfl⟩)
  refine .bind_pure fun abuf _ => ?_
  split
  · refine .bind_pure fun x _ => ?_
    exact .some (hkeep ⟨rfl, rfl, rfl, rfl, rfl, rfl, rfl⟩)
  split
  · rcases Descr.ageread io.ib.fd 1 io.dev with ⟨_ | _ | ⟨b, bs⟩, d'⟩ <;>
      exact .some (hkeep ⟨rfl, rfl, rfl, rfl, rfl, rfl, rfl⟩)
  · exact .some (hkeep ⟨rfl, rfl, rfl, rfl, rfl, rfl, rfl⟩)

theorem areadFetch_refilled (off : Nat) {io : Io δ} (h : Refilled ib io.ib) :
    Ends (fun io' => Refilled ib io'.ib) (areadFetch off io) := by
  have hrefill : ∀ {io : Io δ}, Refilled ib io.ib →
      Ends (fun io' => Refilled ib io'.ib) (areadRefill off io) := by
    intro io h
    unfold areadRefill
    rcases readall io.ib.fd IOABUFREADSIZE io.dev with _ | ⟨⟨raw, fin⟩, d'⟩
    · exact .none
    simp only
    split
    · exact .some h
    split
    · split <;> exact .some h
    · exact areadBlock_refilled raw h
  unfold areadFetch
  simp only
  split <;> split
  · exact hrefill ⟨h.cur, h.size, h.eof, h.isarmor, h.recording, h.recfail, h.record⟩
  · exact .some ⟨h.cur, h.size, h.eof, h.isarmor, h.recording, h.recfail, h.record⟩
  · exact hrefill h
  · exact .some h

theorem areadLoop_refilled (fuel : Nat) : ∀ (n off : Nat) {io : Io δ}, Refilled ib io.ib →
    Ends (fun io' => Refilled ib io'.ib) (areadLoop fuel n off io) := by
  induction fuel with
  | zero =>
    intro n off io h
    cases n with
    | zero => exact .some h
    | succ n => exact .none
  | succ fuel ih =>
    intro n off io h
    cases n with
    | zero => exact .some h
    | succ n =>
      refine .bind (areadFetch_refilled off h) fun r io₁ h₁ => ?_
      cases r with
      | some r => exact .some h₁
      | none =>
        refine .bind_pure fun bs _ => ?_
        refine .bind_pure fun buf _ => ?_
        exact ih _ _ ⟨h₁.cur, h₁.size, h₁.eof, h₁.isarmor, h₁.recording, h₁.recfail, h₁.record⟩

theorem fill_refilled (io : Io δ) : Ends (fun io' => Refilled io.ib io'.ib) (fill io) := by
  have hrefl : Refilled io.ib io.ib := ⟨rfl, rfl, rfl, rfl, rfl, rfl, rfl⟩
  unfold fill
  split
  · exact areadLoop_refilled _ _ _ hrefl
  rcases Descr.ageread io.ib.fd IOBUFSIZE io.dev with ⟨_ | bs, d'⟩
  · exact .some hrefl
  · refine .bind_pure fun buf _ => ?_
    exact .some ⟨rfl, rfl, rfl, rfl, rfl, rfl, rfl⟩

end

/-! ## Calls while recording -/

/-- What the caller has taken is `past`: it lies in the record and in the
buffer, or an allocation has failed. -/
structure Recording (io : Io δ) (past : List UInt8) : Prop where
  recording : io.ib.recording = true
  opened : io.ib.isarmor ≠ .unchecked
  cur : io.ib.cur ≤ io.ib.size
  bound : io.ib.cur ≤ IOBUFSIZE
  fits : io.ib.record.buf.length ≤ io.ib.record.capacity
  past : io.ib.recfail = none → io.ib.record.buf ++ io.ib.buf.window 0 io.ib.cur = past

namespace Recording

variable {io io' : Io δ} {past : List UInt8}

omit [Descr δ] in
/-- A refill of an empty buffer. -/
theorem refill (h : Recording io past) (hcur : io.ib.cur = 0) (hr : Refilled io.ib io'.ib)
    (eof : Bool) {size : Nat} (ebuf : String) :
    Recording { io' with ib := { io'.ib with eof, size }, ebuf } past := by
  have hcur' : io'.ib.cur = 0 := hr.cur.trans hcur
  have hpast := h.past
  rw [hcur, Bytes.window_self, List.append_nil] at hpast
  refine ⟨hr.recording.trans h.recording, ?_, ?_, ?_, ?_, ?_⟩
  · show io'.ib.isarmor ≠ .unchecked
    rw [hr.isarmor]
    exact h.opened
  · show io'.ib.cur ≤ size
    omega
  · show io'.ib.cur ≤ IOBUFSIZE
    omega
  · show io'.ib.record.buf.length ≤ io'.ib.record.capacity
    rw [hr.record]
    exact h.fits
  · intro hfail
    show io'.ib.record.buf ++ io'.ib.buf.window 0 io'.ib.cur = past
    rw [hcur', Bytes.window_self, List.append_nil, hr.record]
    exact hpast (hr.recfail.symm.trans hfail)

theorem drop (h : Recording io past) (hcs : io.ib.cur = io.ib.size)
    (hd : dropBuffer io = some io') : Recording io' past ∧ io'.ib.cur = 0 ∧ io'.ib.size = 0 := by
  unfold dropBuffer at hd
  split at hd
  · obtain ⟨src, hload, hd⟩ := Option.bind_eq_some_iff.mp hd
    rw [← Option.some.inj hd]
    obtain ⟨happ, hok⟩ := recappend_cases src io h.fits
    have hsize : io.ib.size ≤ IOBUFSIZE := by
      by_contra hgt
      rw [Bytes.load_none _ (by omega)] at hload
      cases hload
    rw [Bytes.load_eq _ (by omega), Nat.zero_add] at hload
    refine ⟨⟨?_, ?_, Nat.le_refl 0, Nat.zero_le _, happ.fits, ?_⟩, rfl, rfl⟩
    · show (recappend src io).ib.recording = true
      rw [happ.ib]
      exact h.recording
    · show (recappend src io).ib.isarmor ≠ .unchecked
      rw [happ.ib]
      exact h.opened
    · intro hfail
      obtain ⟨hfail', hbuf⟩ := hok hfail
      show (recappend src io).ib.record.buf ++ (recappend src io).ib.buf.window 0 0 = past
      rw [Bytes.window_self, List.append_nil, hbuf, ← h.past hfail', hcs]
      exact congrArg _ (Option.some.inj hload).symm
  · rename_i hno
    have hzero : io.ib.size = 0 := by
      have := h.recording
      simp only [this, true_and] at hno
      omega
    rw [← Option.some.inj hd]
    refine ⟨⟨h.recording, h.opened, Nat.le_refl 0, Nat.zero_le _, h.fits, ?_⟩, rfl, rfl⟩
    intro hfail
    have hpast := h.past hfail
    rw [hcs, hzero] at hpast
    exact hpast

theorem breadRefill (h : Recording io past) :
    Ends (fun io' => Recording io' past) (Agecrypt.breadRefill io) := by
  have hfetch : ∀ {io : Io δ}, Recording io past →
      Ends (fun io' => Recording io' past) (breadFetch io) := by
    intro io h
    unfold breadFetch
    split
    · rename_i hz
      have hcur : io.ib.cur = 0 := by
        have := h.cur
        omega
      refine .bind (fill_refilled io) fun nr io₁ hr => ?_
      rcases nr with _ | _ | _ | n
      · exact .some (h.refill hcur hr io₁.ib.eof io₁.ebuf)
      · exact .some (h.refill hcur hr io₁.ib.eof _)
      · exact .some (h.refill hcur hr true io₁.ebuf)
      · exact .some (h.refill hcur hr io₁.ib.eof io₁.ebuf)
    · exact .some h
  unfold Agecrypt.breadRefill
  split
  · rename_i hcs
    refine .bind_pure fun io₁ hd => ?_
    exact hfetch (h.drop hcs hd).1
  · exact hfetch h

/-- The loop of `bread` delivers what it adds to `past`. -/
theorem breadLoop (fuel : Nat) : ∀ (n : Nat) (acc past : List UInt8) {io : Io δ},
    Recording io past → ∀ out io', Agecrypt.breadLoop fuel n acc io = some (some out, io') →
    ∃ bs, out = acc ++ bs ∧ Recording io' (past ++ bs) := by
  induction fuel with
  | zero =>
    intro n acc past io h out io' hb
    cases n with
    | zero =>
      rw [Agecrypt.breadLoop] at hb
      obtain ⟨hout, rfl⟩ := Prod.mk.inj (Option.some.inj hb)
      refine ⟨[], ?_, ?_⟩
      · rw [← Option.some.inj hout, List.append_nil]
      · rw [List.append_nil]
        exact h
    | succ n =>
      rw [Agecrypt.breadLoop] at hb
      cases hb
  | succ fuel ih =>
    intro n acc past io h out io' hb
    have hstop : ∀ {io₁ : Io δ}, Recording io₁ past → some acc = some out → io₁ = io' →
        ∃ bs, out = acc ++ bs ∧ Recording io' (past ++ bs) := by
      intro io₁ h₁ hout hio
      refine ⟨[], ?_, ?_⟩
      · rw [← Option.some.inj hout, List.append_nil]
      · rw [List.append_nil, ← hio]
        exact h₁
    cases n with
    | zero =>
      rw [Agecrypt.breadLoop] at hb
      obtain ⟨hout, hio⟩ := Prod.mk.inj (Option.some.inj hb)
      exact hstop h hout hio
    | succ n =>
      rw [Agecrypt.breadLoop] at hb
      obtain ⟨⟨r, io₁⟩, hrefill, hb⟩ := Option.bind_eq_some_iff.mp hb
      have h₁ := h.breadRefill _ _ hrefill
      rcases r with _ | _ | _
      · simp only at hb
        split at hb
        · obtain ⟨hout, hio⟩ := Prod.mk.inj (Option.some.inj hb)
          exact hstop h₁ hout hio
        · obtain ⟨c, hc⟩ : ∃ c, c = min (io₁.ib.size - io₁.ib.cur) (n + 1) := ⟨_, rfl⟩
          rw [← hc] at hb
          obtain ⟨bs, hload, hb⟩ := Option.bind_eq_some_iff.mp hb
          have hbound : io₁.ib.cur + c ≤ IOBUFSIZE := by
            by_contra hgt
            rw [Bytes.load_none _ (by omega)] at hload
            cases hload
          rw [Bytes.load_eq _ hbound] at hload
          have hcur := h₁.cur
          have h₂ : Recording { io₁ with ib := { io₁.ib with cur := io₁.ib.cur + c } }
              (past ++ bs) := by
            refine ⟨h₁.recording, h₁.opened, ?_, hbound, h₁.fits, ?_⟩
            · show io₁.ib.cur + c ≤ io₁.ib.size
              omega
            · intro hfail
              show io₁.ib.record.buf ++ io₁.ib.buf.window 0 (io₁.ib.cur + c) = past ++ bs
              rw [← h₁.past hfail, ← Option.some.inj hload, List.append_assoc,
                Bytes.window_append _ (Nat.zero_le _) (Nat.le_add_right _ _)]
          obtain ⟨bs', hout, h'⟩ := ih _ _ _ h₂ out io' hb
          refine ⟨bs ++ bs', ?_, ?_⟩
          · rw [hout, List.append_assoc]
          · rw [← List.append_assoc]
            exact h'
      · obtain ⟨hout, -⟩ := Prod.mk.inj (Option.some.inj hb)
        cases hout
      · obtain ⟨hout, hio⟩ := Prod.mk.inj (Option.some.inj hb)
        exact hstop h₁ hout hio

/-- A peek delivers nothing. -/
theorem bpeek (h : Recording io past) :
    Ends (fun io' => Recording io' past) (Agecrypt.bpeek io) := by
  have hprobe : probe io = some (true, io) := by
    rw [probe, if_neg h.opened]
  unfold Agecrypt.bpeek
  rw [hprobe]
  simp only [Option.bind_eq_bind, Option.bind_some, not_true_eq_false, if_false]
  split
  · exact .some h
  split
  · exact .bind_pure fun bs _ => .some h
  · rename_i hge
    have hcs : io.ib.cur = io.ib.size := Nat.le_antisymm h.cur (Nat.le_of_not_lt hge)
    refine .bind_pure fun io₁ hd => ?_
    obtain ⟨h₁, hcur, -⟩ := h.drop hcs hd
    refine .bind (fill_refilled io₁) fun nr io₂ hr => ?_
    rcases nr with _ | _ | _ | n
    · exact .some (h₁.refill hcur hr io₂.ib.eof io₂.ebuf)
    · exact .bind_pure fun bs _ => .some (h₁.refill hcur hr io₂.ib.eof io₂.ebuf)
    · exact .some (h₁.refill hcur hr true io₂.ebuf)
    · exact .bind_pure fun bs _ => .some (h₁.refill hcur hr io₂.ib.eof io₂.ebuf)

end Recording

/-- Nothing has been read. -/
structure Blank (io : Io δ) : Prop where
  isarmor : io.ib.isarmor = .unchecked
  recording : io.ib.recording = true
  cur : io.ib.cur = 0
  record : io.ib.record = ⟨[], 0⟩

/-- The probe takes nothing. -/
theorem Blank.probe {io io' : Io δ} (h : Blank io) (hp : probe io = some (true, io')) :
    Recording io' [] := by
  have hopen : ∀ {io₁ : Io δ}, io₁.ib.recording = true → io₁.ib.isarmor ≠ .unchecked →
      io₁.ib.cur = 0 → io₁.ib.record = ⟨[], 0⟩ → Recording io₁ [] := by
    intro io₁ hrec harm hcur hrecord
    refine ⟨hrec, harm, by omega, by omega, ?_, ?_⟩
    · rw [hrecord]
      exact Nat.le_refl 0
    · intro _
      rw [hrecord, hcur, Bytes.window_self]
      rfl
  rw [Agecrypt.probe, if_pos h.isarmor] at hp
  obtain ⟨⟨a, io₁⟩, harm, hx⟩ := Option.bind_eq_some_iff.mp hp
  obtain ⟨hok, rfl⟩ := Prod.mk.inj (Option.some.inj hx)
  unfold Agecrypt.isarmor at harm
  obtain ⟨⟨⟨bs, fin⟩, dev⟩, -, harm⟩ := Option.bind_eq_some_iff.mp harm
  obtain ⟨buf, -, harm⟩ := Option.bind_eq_some_iff.mp harm
  simp only at harm
  have hrecord := h.record
  split at harm
  · obtain ⟨rfl, -⟩ := Prod.mk.inj (Option.some.inj harm)
    simp at hok
  split at harm
  · obtain ⟨rfl, rfl⟩ := Prod.mk.inj (Option.some.inj harm)
    exact hopen h.recording (fun he => Armored.noConfusion he) h.cur h.record
  split at harm
  · obtain ⟨rfl, rfl⟩ := Prod.mk.inj (Option.some.inj harm)
    exact hopen h.recording (fun he => Armored.noConfusion he) h.cur h.record
  · obtain ⟨rfl, rfl⟩ := Prod.mk.inj (Option.some.inj harm)
    exact hopen h.recording (fun he => Armored.noConfusion he) h.cur h.record

/-! ## Sequences of calls -/

namespace ReadAns

/-- The call reported no error. -/
def Ok (a : ReadAns) : Prop := a ≠ .bread none ∧ a ≠ .bpeek .err

instance (a : ReadAns) : Decidable a.Ok := inferInstanceAs (Decidable (_ ∧ _))

/-- The bytes that the call took from the input. -/
def taken : ReadAns → List UInt8
  | .bread r => r.getD []
  | .bpeek _ => []

end ReadAns

/-- What the calls took from the input. -/
def taken (as : List ReadAns) : List UInt8 := (as.map ReadAns.taken).flatten

/-- Before the first call, or after some calls. -/
def Records (io : Io δ) (past : List UInt8) : Prop :=
  (Blank io ∧ past = []) ∨ Recording io past

theorem Records.readCall {io io' : Io δ} {past : List UInt8} (c : ReadCall) {a : ReadAns}
    (h : Records io past) (hc : readCall c io = some (a, io')) (hok : a.Ok) :
    Records io' (past ++ a.taken) := by
  -- the first statement of both calls
  have hprobe : ∀ {io₁ : Io δ} {ok : Bool}, probe io = some (ok, io₁) →
      ok = true → probe io₁ = some (true, io₁) ∧ Recording io₁ past := by
    intro io₁ ok hp hok
    have hrec : Recording io₁ past := by
      rcases h with ⟨hb, rfl⟩ | h
      · exact hb.probe (by rw [hp, hok])
      · rw [probe, if_neg h.opened] at hp
        obtain ⟨-, rfl⟩ := Prod.mk.inj (Option.some.inj hp)
        exact h
    exact ⟨by rw [probe, if_neg hrec.opened], hrec⟩
  cases c with
  | bread n =>
    obtain ⟨⟨r, io₂⟩, hb, hx⟩ := Option.map_eq_some_iff.mp hc
    obtain ⟨ha, rfl⟩ := Prod.mk.inj hx
    obtain ⟨⟨ok, io₁⟩, hp, hb⟩ := Option.bind_eq_some_iff.mp hb
    have ha : a = .bread r := ha.symm
    cases r with
    | none => exact absurd ha hok.1
    | some out =>
      cases ok with
      | false => cases hb
      | true =>
        obtain ⟨bs, hout, h'⟩ := (hprobe hp rfl).2.breadLoop n n [] past out io₂ hb
        rw [List.nil_append] at hout
        rw [ha]
        show Records io₂ (past ++ out)
        rw [hout]
        exact .inr h'
  | bpeek =>
    obtain ⟨⟨r, io₂⟩, hb, hx⟩ := Option.map_eq_some_iff.mp hc
    obtain ⟨ha, rfl⟩ := Prod.mk.inj hx
    have ha : a = .bpeek r := ha.symm
    obtain ⟨⟨ok, io₁⟩, hp, hb'⟩ := Option.bind_eq_some_iff.mp hb
    cases ok with
    | false =>
      obtain ⟨hr, -⟩ := Prod.mk.inj (Option.some.inj hb')
      rw [← hr] at ha
      exact absurd ha hok.2
    | true =>
      obtain ⟨hagain, hrec⟩ := hprobe hp rfl
      have hb₁ : bpeek io₁ = some (r, io₂) := by
        unfold bpeek
        rw [hagain]
        exact hb'
      rw [ha]
      show Records io₂ (past ++ [])
      rw [List.append_nil]
      exact .inr (hrec.bpeek r io₂ hb₁)

theorem Records.readCalls (calls : List ReadCall) : ∀ {io io' : Io δ} {past : List UInt8}
    {as : List ReadAns}, Records io past → readCalls calls io = some (as, io') →
    (∀ a ∈ as, a.Ok) → Records io' (past ++ taken as) := by
  induction calls with
  | nil =>
    intro io io' past as h hc _
    rw [Agecrypt.readCalls] at hc
    obtain ⟨rfl, rfl⟩ := Prod.mk.inj (Option.some.inj hc)
    show Records io (past ++ [])
    rw [List.append_nil]
    exact h
  | cons c calls ih =>
    intro io io' past as h hc hok
    rw [Agecrypt.readCalls] at hc
    obtain ⟨⟨a, io₁⟩, h₁, hc⟩ := Option.bind_eq_some_iff.mp hc
    obtain ⟨⟨as', io₂⟩, h₂, hc⟩ := Option.bind_eq_some_iff.mp hc
    obtain ⟨rfl, rfl⟩ := Prod.mk.inj (Option.some.inj hc)
    have hfirst := h.readCall c h₁ (hok a List.mem_cons_self)
    have hrest := ih hfirst h₂ fun x hx => hok x (List.mem_cons_of_mem _ hx)
    show Records io₂ (past ++ (a.taken ++ taken as'))
    rw [← List.append_assoc]
    exact hrest

/-! ## The end of the recording -/

/-- `recstop` reports that an allocation failed, or it returns `past`. -/
def RecExact (io : Io δ) (past : List UInt8) : Prop :=
  ∃ r io', recstop io = some (r, io') ∧
    ((r = none ∧ ∃ e, io.ib.recfail = some e ∧ io'.ebuf = esetText e) ∨
      ∃ len, r = some len ∧ loadData len io' = some past)

theorem recExact_iff {io : Io δ} {past : List UInt8} (hbound : io.ib.cur ≤ IOBUFSIZE)
    (hfits : io.ib.record.buf.length ≤ io.ib.record.capacity)
    (hpast : io.ib.recfail = none →
      io.ib.record.buf ++ io.ib.buf.window 0 io.ib.cur = past) :
    RecExact io past ↔
      ¬ (io.ib.recfail = none ∧ io.ib.record.capacity ≠ 0 ∧ GrowFails io.ib.cur io) := by
  obtain ⟨io₀, hio₀⟩ : ∃ io₀, io₀ = { io with ib := { io.ib with recording := false } } := ⟨_, rfl⟩
  have hib : io₀.ib = { io.ib with recording := false } := by rw [hio₀]
  rcases hfail : io.ib.recfail with _ | e
  · replace hpast := hpast hfail
    have hload : io₀.ib.buf.load 0 io₀.ib.cur = some (io.ib.buf.window 0 io.ib.cur) := by
      rw [hib, Bytes.load_eq _ (by simp only; omega), Nat.zero_add]
    by_cases hcap : io.ib.record.capacity = 0
    · -- nothing has left the buffer
      have hempty : io.ib.record.buf = [] := by
        exact List.length_eq_zero_iff.mp (by omega)
      rw [hempty, List.nil_append] at hpast
      have hstop : recstop io = some (some io₀.ib.cur, { io₀ with data := .readBuffer }) := by
        rw [recstop, ← hio₀]
        simp only [hib, hfail, hcap, if_true]
      refine ⟨fun _ hno => hno.2.1 hcap, fun _ => ⟨_, _, hstop, .inr ⟨_, rfl, ?_⟩⟩⟩
      show io₀.ib.buf.load 0 io₀.ib.cur = some past
      rw [hload, hpast]
    · have hstop : recstop io =
          some (some (recappend (io.ib.buf.window 0 io.ib.cur) io₀).ib.record.buf.length,
          { recappend (io.ib.buf.window 0 io.ib.cur) io₀ with data := .recording }) := by
        rw [recstop, ← hio₀]
        have hfail₀ : io₀.ib.recfail = none := by rw [hib, hfail]
        have hcap₀ : ¬ io₀.ib.record.capacity = 0 := by rw [hib]; exact hcap
        simp only [hfail₀, hcap₀, if_false, Option.bind_eq_bind, hload, Option.bind_some]
      have hgrow : recappend (io.ib.buf.window 0 io.ib.cur) io₀ =
          recgrow (io.ib.buf.window 0 io.ib.cur) io₀ := by
        rw [recappend, hib, hfail]
        simp [hcap]
      rw [hgrow] at hstop
      have hlen : (io.ib.buf.window 0 io.ib.cur).length = io.ib.cur := by
        rw [Bytes.length_window _ hbound, Nat.sub_zero]
      have hfits₀ : io₀.ib.record.buf.length ≤ io₀.ib.record.capacity := by
        rw [hib]
        exact hfits
      have hsame : GrowFails io.ib.cur io₀ ↔ GrowFails io.ib.cur io := by
        rw [GrowFails, GrowFails, hio₀]
      obtain ⟨-, hcases⟩ := recgrow_cases (io.ib.buf.window 0 io.ib.cur) io₀ hfits₀
      rw [hlen, hsame] at hcases
      rcases hcases with ⟨hroom, -, hbuf⟩ | ⟨hno, -, hrecord⟩
      · refine ⟨fun _ hno => hroom hno.2.2, fun _ => ⟨_, _, hstop, .inr ⟨_, rfl, ?_⟩⟩⟩
        show (if _ ≤ _ then _ else _) = some past
        rw [if_pos (Nat.le_refl _), List.take_length, hbuf, hib, hpast]
      · refine ⟨fun hexact => ?_, fun hyes => absurd ⟨rfl, hcap, hno⟩ hyes⟩
        obtain ⟨r, io', hr, hcase⟩ := hexact
        rw [hstop] at hr
        obtain ⟨rfl, rfl⟩ := Prod.mk.inj (Option.some.inj hr)
        rcases hcase with ⟨hnone, -⟩ | ⟨len, hsome, hdata⟩
        · cases hnone
        · rw [← Option.some.inj hsome] at hdata
          have hdata : (if _ ≤ _ then _ else _) = some past := hdata
          rw [if_pos (Nat.le_refl _), List.take_length, hrecord, hib] at hdata
          have hshort : io.ib.record.buf.length = past.length :=
            congrArg List.length (Option.some.inj hdata)
          rw [← hpast, List.length_append, hlen] at hshort
          have := hno.1
          omega
  · have hstop : recstop io = some (none, eset e io₀) := by
      rw [recstop, ← hio₀, hib, hfail]
    refine ⟨fun _ hno => Option.some_ne_none e hno.1, fun _ => ?_⟩
    exact ⟨_, _, hstop, .inl ⟨rfl, e, hfail, rfl⟩⟩

/-- Whatever the short reads and the allocations: behind calls that reported
no error, `recstop` reports a failed allocation or returns exactly what the
calls took, unless the record is in use and cannot take in what is left in
the buffer. -/
theorem recstop_exact_iff (calls : List ReadCall) (m : Memory) (fi fo : Int) (isarmor : Bool)
    (dev : Dev) {as : List ReadAns} {io : Io Dev}
    (hcalls : readCalls calls (m.start fi fo true isarmor dev) = some (as, io))
    (hok : ∀ a ∈ as, a.Ok) :
    RecExact io (taken as) ↔
      ¬ (io.ib.recfail = none ∧ io.ib.record.capacity ≠ 0 ∧ GrowFails io.ib.cur io) := by
  have hstart : Blank (m.start fi fo true isarmor dev) := ⟨rfl, rfl, rfl, rfl⟩
  have h := Records.readCalls calls (.inl ⟨hstart, rfl⟩) hcalls hok
  rw [List.nil_append] at h
  rcases h with ⟨hb, hpast⟩ | h
  · rw [hpast]
    apply recExact_iff
    · rw [hb.cur]
      exact Nat.zero_le _
    · rw [hb.record]
      exact Nat.le_refl 0
    · intro _
      rw [hb.record, hb.cur, Bytes.window_self]
      rfl
  · exact recExact_iff h.bound h.fits h.past

/-- The record is in use, and 500 bytes are left in the buffer. -/
theorem recstop_exact_iff_record :
    ∃ as io, readCalls [.bread 35, .bread 500]
          (Memory.zero.start 3 4 true false (Dev.steady (List.replicate 600 0) 9000)) =
        some (as, io) ∧ io.ib.record.buf.length = 35 ∧ io.ib.cur = 500 ∧
      (RecExact io (taken as) ↔
        ¬ (io.ib.recfail = none ∧ io.ib.record.capacity ≠ 0 ∧ GrowFails io.ib.cur io)) := by
  have heval : (readCalls [.bread 35, .bread 500]
        (Memory.zero.start 3 4 true false (Dev.steady (List.replicate 600 0) 9000))).map
      (fun x => (x.1, x.2.ib.record.buf.length, x.2.ib.cur)) =
      some ([.bread (some (List.replicate 35 0)), .bread (some (List.replicate 500 0))],
        35, 500) := by
    decide +kernel
  obtain ⟨⟨as, io⟩, hcalls, hx⟩ := Option.map_eq_some_iff.mp heval
  obtain ⟨has, hx⟩ := Prod.mk.inj hx
  obtain ⟨hlen, hcur⟩ := Prod.mk.inj hx
  have hok : ∀ a ∈ as, a.Ok := by
    rw [show as = [.bread (some (List.replicate 35 0)), .bread (some (List.replicate 500 0))]
      from has]
    decide
  exact ⟨as, io, hcalls, hlen, hcur, recstop_exact_iff [.bread 35, .bread 500] Memory.zero 3 4 false
    (Dev.steady (List.replicate 600 0) 9000) hcalls hok⟩

/-! ## An append that fails unseen -/

/-- A system of 600 bytes on which only the first allocation succeeds. -/
def shortMemory : Dev :=
  { Dev.steady (List.replicate 600 0) 9000 with allocs := fun i => i = 0 }

/-- With `shortMemory` the record holds the 35 bytes of the probe, and has no
room for the 500 bytes that were read after them: `recstop` returns the 35. -/
theorem recstop_shortened :
    ¬ ∀ (calls : List ReadCall) (m : Memory) (fi fo : Int) (isarmor : Bool) (dev : Dev)
      (as : List ReadAns) (io : Io Dev), ¬ armorfirst <+: dev.inp →
      readCalls calls (m.start fi fo true isarmor dev) = some (as, io) →
      (∀ a ∈ as, a.Ok) → RecExact io (taken as) := by
  intro hall
  have hbin : ¬ armorfirst <+: shortMemory.inp := by decide +kernel
  have heval : ((readCalls [.bread 35, .bread 500]
        (Memory.zero.start 3 4 true false shortMemory)).map fun x =>
      (x.1, (recstop x.2).map fun y => (y.1, y.1.bind fun len => loadData len y.2))) =
      some ([.bread (some (List.replicate 35 0)), .bread (some (List.replicate 500 0))],
        some (some 35, some (List.replicate 35 0))) := by decide +kernel
  obtain ⟨⟨as, io⟩, hcalls, hx⟩ := Option.map_eq_some_iff.mp heval
  obtain ⟨has, hstop⟩ := Prod.mk.inj hx
  obtain ⟨⟨r, io'⟩, hrec, hy⟩ := Option.map_eq_some_iff.mp hstop
  obtain ⟨hr, hdata⟩ := Prod.mk.inj hy
  have has : as = [.bread (some (List.replicate 35 0)), .bread (some (List.replicate 500 0))] := has
  have hr : r = some 35 := hr
  rw [hr] at hrec hdata
  have hok : ∀ a ∈ as, a.Ok := by
    rw [has]
    decide
  obtain ⟨r', io'', hrec', hcase⟩ := hall _ _ _ _ _ _ as io hbin hcalls hok
  have hsame := Prod.mk.inj (Option.some.inj (hrec.symm.trans hrec'))
  rcases hcase with ⟨hnone, -⟩ | ⟨len, hlen, hload⟩
  · rw [hnone] at hsame
    cases hsame.1
  · rw [hlen] at hsame
    rw [← hsame.2, ← Option.some.inj hsame.1] at hload
    have hshort : some (List.replicate 35 0) = some (taken as) := hdata.symm.trans hload
    rw [has] at hshort
    exact absurd hshort (by decide +kernel)

end Agecrypt
