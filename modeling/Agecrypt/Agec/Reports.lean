import Agecrypt.Agec.Armor
import Agecrypt.Agec.Failures
import Agecrypt.Agec.Stable

/-!
# `io.c` reports the reads and writes that fail

A call of the buffers that does not answer -1 has met no read and no write
that failed.  The one result that `io.c` does not look at is that of
`endskip`; it is never called, since `endcheck` never reports a part of the
ending line.
-/

namespace Agecrypt

variable {δ : Type} [Descr δ]

/-- The calls on the descriptors `fi` and `fo` that do not fail keep `I`. -/
structure Unfailing (fi fo : Int) (I : δ → Prop) : Prop where
  ageread : ∀ {d n bs d'}, I d → Descr.ageread fi n d = (some bs, d') → I d'
  agewrite : ∀ {d bs k d'}, I d → Descr.agewrite fo bs d = some (some k, d') → I d'
  alloc : ∀ {d n r d'}, I d → Descr.alloc n d = (r, d') → I d'
  randombuf : ∀ {d n r d'}, I d → Descr.randombuf n d = (r, d') → I d'

/-- The descriptors are in place, and `aendpos` lies in the ending line. -/
structure Placed (fi fo : Int) (io : Io δ) : Prop where
  ib : io.ib.fd = fi
  ob : io.ob.fd = fo
  aendpos : io.ib.aendpos ≤ armorlast.length

/-- What the answers say: with one of the answers `A` no call has failed. -/
def Tells {α : Type} (fi fo : Int) (I : δ → Prop) (A : α → Prop) (x : Option (α × Io δ)) : Prop :=
  ∀ r io, x = some (r, io) → Placed fi fo io ∧ (A r → I io.dev)

variable {fi fo : Int} {I : δ → Prop}

namespace Tells

variable {α β : Type} {A : α → Prop} {B : β → Prop}

omit [Descr δ]

theorem none : Tells fi fo I A none := by
  intro r io h
  cases h

theorem some {r : α} {io : Io δ} (h : Placed fi fo io) (hI : A r → I io.dev) :
    Tells fi fo I A (Option.some (r, io)) := by
  intro r' io' he
  obtain ⟨rfl, rfl⟩ := Prod.mk.inj (Option.some.inj he)
  exact ⟨h, hI⟩

theorem imp {x : Option (α × Io δ)} {A' : α → Prop} (h : Tells fi fo I A x)
    (hA : ∀ r, A' r → A r) : Tells fi fo I A' x := by
  intro r io he
  obtain ⟨hp, hI⟩ := h r io he
  exact ⟨hp, fun hr => hI (hA r hr)⟩

/-- Behind a call that failed, and behind one that did not. -/
theorem bind {x : Option (α × Io δ)} {f : α × Io δ → Option (β × Io δ)} (h : Tells fi fo I A x)
    (hbad : ∀ r io, Placed fi fo io → ¬ A r → Tells fi fo I B (f (r, io)))
    (hf : ∀ r io, Placed fi fo io → A r → I io.dev → Tells fi fo I B (f (r, io))) :
    Tells fi fo I B (x.bind f) := by
  rcases x with _ | ⟨r, io⟩
  · exact none
  obtain ⟨hp, hI⟩ := h r io rfl
  by_cases hA : A r
  · exact hf r io hp hA (hI hA)
  · exact hbad r io hp hA

/-- After a step that may have no outcome. -/
theorem bind_pure {γ : Type} {x : Option γ} {f : γ → Option (β × Io δ)}
    (hf : ∀ c, x = Option.some c → Tells fi fo I B (f c)) : Tells fi fo I B (x.bind f) := by
  rcases x with _ | c
  · exact none
  · exact hf c rfl

end Tells

section Calls

variable (hI : Unfailing fi fo I)

include hI

theorem readall_tells {n : Nat} {d d' : δ} {bs : List UInt8} {fin : ReadEnd} (hd : I d)
    (h : readall fi n d = some ((bs, fin), d')) (hfin : fin ≠ .fail) : I d' := by
  have hloop : ∀ fuel n acc d, I d → readallLoop fi fuel n acc d = some ((bs, fin), d') → I d' := by
    intro fuel
    induction fuel with
    | zero =>
      intro n acc d hd h
      rcases n with _ | n
      · obtain ⟨-, rfl⟩ := Prod.mk.inj (Option.some.inj h)
        exact hd
      · cases h
    | succ fuel ih =>
      intro n acc d hd h
      rcases n with _ | n
      · obtain ⟨-, rfl⟩ := Prod.mk.inj (Option.some.inj h)
        exact hd
      rw [readallLoop] at h
      rcases hr : Descr.ageread fi (n + 1) d with ⟨_ | _ | ⟨b, bs'⟩, d₁⟩ <;> rw [hr] at h
      · exact absurd (Prod.mk.inj (Prod.mk.inj (Option.some.inj h)).1).2.symm hfin
      · obtain ⟨-, rfl⟩ := Prod.mk.inj (Option.some.inj h)
        exact hI.ageread hd hr
      · exact ih _ _ _ (hI.ageread hd hr) h
  exact hloop _ _ _ _ hd h

theorem writeall_tells {bs : List UInt8} {d d' : δ} (hd : I d)
    (h : writeall fo bs d = some (true, d')) : I d' := by
  have hloop : ∀ fuel bs d, I d → writeallLoop fo fuel bs d = some (true, d') → I d' := by
    intro fuel
    induction fuel with
    | zero =>
      intro bs d hd h
      rcases bs with _ | ⟨b, bs⟩
      · obtain ⟨-, rfl⟩ := Prod.mk.inj (Option.some.inj h)
        exact hd
      · cases h
    | succ fuel ih =>
      intro bs d hd h
      rcases bs with _ | ⟨b, bs⟩
      · obtain ⟨-, rfl⟩ := Prod.mk.inj (Option.some.inj h)
        exact hd
      rw [writeallLoop] at h
      rcases hw : Descr.agewrite fo (b :: bs) d with _ | ⟨_ | _ | k, d₁⟩ <;> rw [hw] at h
      · cases h
      · cases (Prod.mk.inj (Option.some.inj h)).1
      · cases (Prod.mk.inj (Option.some.inj h)).1
      · exact ih _ _ (hI.agewrite hd hw) h
  exact hloop _ _ _ hd h

/-! ## The recording -/

theorem recgrow_tells (src : List UInt8) {io : Io δ} (hp : Placed fi fo io) (hd : I io.dev) :
    Placed fi fo (recgrow src io) ∧ I (recgrow src io).dev := by
  unfold recgrow
  simp only
  split
  · split
    · exact ⟨⟨hp.ib, hp.ob, hp.aendpos⟩, hd⟩
    · rcases ha : Descr.alloc _ io.dev with ⟨_ | _, d'⟩ <;>
        exact ⟨⟨hp.ib, hp.ob, hp.aendpos⟩, hI.alloc hd ha⟩
  · exact ⟨⟨hp.ib, hp.ob, hp.aendpos⟩, hd⟩

theorem recappend_tells (src : List UInt8) {io : Io δ} (hp : Placed fi fo io) (hd : I io.dev) :
    Placed fi fo (recappend src io) ∧ I (recappend src io).dev := by
  unfold recappend
  split
  · exact ⟨hp, hd⟩
  split
  · rcases ha : Descr.alloc RECINITLEN io.dev with ⟨_ | _, d'⟩
    · exact ⟨⟨hp.ib, hp.ob, hp.aendpos⟩, hI.alloc hd ha⟩
    · exact recgrow_tells hI src ⟨hp.ib, hp.ob, hp.aendpos⟩ (hI.alloc hd ha)
  · exact recgrow_tells hI src hp hd

theorem recstop_tells {io : Io δ} (hp : Placed fi fo io) (hd : I io.dev) :
    Tells fi fo I (fun _ => True) (recstop io) := by
  unfold recstop
  simp only
  split
  · exact .some ⟨hp.ib, hp.ob, hp.aendpos⟩ fun _ => hd
  split
  · exact .some ⟨hp.ib, hp.ob, hp.aendpos⟩ fun _ => hd
  · refine .bind_pure fun src _ => ?_
    have hr := recappend_tells hI src
      (show Placed fi fo { io with ib := { io.ib with recording := false } } from
        ⟨hp.ib, hp.ob, hp.aendpos⟩) hd
    exact .some ⟨hr.1.ib, hr.1.ob, hr.1.aendpos⟩ fun _ => hr.2

/-! ## Reading -/

theorem areadBlock_tells (raw : List UInt8) {io : Io δ} (hp : Placed fi fo io) (hd : I io.dev) :
    Tells fi fo I (fun r => r ≠ some .ioerr) (areadBlock raw io) := by
  have hle := endcheck_le (fun _ => 0) raw hp.aendpos
  have hpartial := endcheck_partial (fun _ => 0) raw hp.aendpos
  unfold areadBlock
  simp only
  split
  · exact .some ⟨hp.ib, hp.ob, hle⟩ fun _ => hd
  split
  · exact .some ⟨hp.ib, hp.ob, hle⟩ fun _ => hd
  refine .bind_pure fun abuf _ => ?_
  -- `endskip` is not reached
  split
  · rw [hp.ib]
    rcases hr : Descr.ageread fi 1 io.dev with ⟨_ | _ | ⟨b, bs⟩, d'⟩
    · exact .some ⟨rfl, hp.ob, hle⟩ fun hne => absurd rfl hne
    · exact .some ⟨rfl, hp.ob, hle⟩ fun _ => hI.ageread hd hr
    · exact .some ⟨rfl, hp.ob, hle⟩ fun _ => hI.ageread hd hr
  · exact .some ⟨hp.ib, hp.ob, hle⟩ fun _ => hd

theorem areadRefill_tells (off : Nat) {io : Io δ} (hp : Placed fi fo io) (hd : I io.dev) :
    Tells fi fo I (fun r => r ≠ some .ioerr) (areadRefill off io) := by
  unfold areadRefill
  rw [hp.ib]
  rcases hr : readall fi IOABUFREADSIZE io.dev with _ | ⟨⟨raw, fin⟩, d'⟩
  · exact .none
  simp only
  split
  · exact .some ⟨hp.ib, hp.ob, hp.aendpos⟩ fun hne => absurd rfl hne
  rename_i hfin
  have hd' := readall_tells hI hd hr hfin
  split
  · split
    · exact .some ⟨hp.ib, hp.ob, hp.aendpos⟩ fun _ => hd'
    · exact .some ⟨hp.ib, hp.ob, hp.aendpos⟩ fun _ => hd'
  · exact areadBlock_tells hI raw ⟨hp.ib, hp.ob, hp.aendpos⟩ hd'

theorem areadLoop_tells (fuel : Nat) : ∀ (n off : Nat) {io : Io δ}, Placed fi fo io → I io.dev →
    Tells fi fo I (fun r => r ≠ .ioerr) (areadLoop fuel n off io) := by
  induction fuel with
  | zero =>
    intro n off io hp hd
    rcases n with _ | n
    · exact .some hp fun _ => hd
    · exact .none
  | succ fuel ih =>
    intro n off io hp hd
    rcases n with _ | n
    · exact .some hp fun _ => hd
    have hfetch : Tells fi fo I (fun r => r ≠ some .ioerr) (areadFetch off io) := by
      unfold areadFetch
      simp only
      split <;> split
      · exact areadRefill_tells hI off ⟨hp.ib, hp.ob, hp.aendpos⟩ hd
      · exact .some ⟨hp.ib, hp.ob, hp.aendpos⟩ fun _ => hd
      · exact areadRefill_tells hI off hp hd
      · exact .some hp fun _ => hd
    refine .bind hfetch (fun r io₁ hp₁ hr => ?_) fun r io₁ hp₁ hr hd₁ => ?_
    · obtain rfl := not_not.mp hr
      exact .some hp₁ fun hne => absurd rfl hne
    · rcases r with _ | r
      · exact .bind_pure fun bs _ => .bind_pure fun buf _ =>
          ih _ _ ⟨hp₁.ib, hp₁.ob, hp₁.aendpos⟩ hd₁
      · exact .some hp₁ fun _ => hd₁

theorem fill_tells {io : Io δ} (hp : Placed fi fo io) (hd : I io.dev) :
    Tells fi fo I (fun r => r ≠ .ioerr) (fill io) := by
  unfold fill
  split
  · exact areadLoop_tells hI _ _ _ hp hd
  rw [hp.ib]
  rcases hr : Descr.ageread fi IOBUFSIZE io.dev with ⟨_ | bs, d'⟩
  · exact .some ⟨hp.ib, hp.ob, hp.aendpos⟩ fun hne => absurd rfl hne
  · exact .bind_pure fun buf _ =>
      .some ⟨hp.ib, hp.ob, hp.aendpos⟩ fun _ => hI.ageread hd hr

theorem dropBuffer_tells {io io' : Io δ} (hp : Placed fi fo io) (hd : I io.dev)
    (he : dropBuffer io = some io') : Placed fi fo io' ∧ I io'.dev := by
  unfold dropBuffer at he
  split at he
  · obtain ⟨src, -, he⟩ := Option.bind_eq_some_iff.mp he
    have hr := recappend_tells hI src hp hd
    rw [← Option.some.inj he]
    exact ⟨⟨hr.1.ib, hr.1.ob, hr.1.aendpos⟩, hr.2⟩
  · rw [← Option.some.inj he]
    exact ⟨⟨hp.ib, hp.ob, hp.aendpos⟩, hd⟩

theorem breadLoop_tells (fuel : Nat) : ∀ (n : Nat) (acc : List UInt8) {io : Io δ},
    Placed fi fo io → I io.dev → Tells fi fo I (fun r => r ≠ none) (breadLoop fuel n acc io) := by
  have hfetch : ∀ {io : Io δ}, Placed fi fo io → I io.dev →
      Tells fi fo I (fun r => r ≠ some false) (breadFetch io) := by
    intro io hp hd
    unfold breadFetch
    split
    · refine .bind (fill_tells hI hp hd) (fun nr io₁ hp₁ hnr => ?_) fun nr io₁ hp₁ hnr hd₁ => ?_
      · obtain rfl := not_not.mp hnr
        exact .some hp₁ fun hne => absurd rfl hne
      · rcases nr with _ | _ | _ | n
        · exact absurd rfl hnr
        · exact .some ⟨hp₁.ib, hp₁.ob, hp₁.aendpos⟩ fun _ => hd₁
        · exact .some ⟨hp₁.ib, hp₁.ob, hp₁.aendpos⟩ fun _ => hd₁
        · exact .some ⟨hp₁.ib, hp₁.ob, hp₁.aendpos⟩ fun _ => hd₁
    · exact .some hp fun _ => hd
  have hrefill : ∀ {io : Io δ}, Placed fi fo io → I io.dev →
      Tells fi fo I (fun r => r ≠ some false) (breadRefill io) := by
    intro io hp hd
    unfold breadRefill
    split
    · exact .bind_pure fun io₁ he =>
        hfetch (dropBuffer_tells hI hp hd he).1 (dropBuffer_tells hI hp hd he).2
    · exact hfetch hp hd
  induction fuel with
  | zero =>
    intro n acc io hp hd
    rcases n with _ | n
    · exact .some hp fun _ => hd
    · exact .none
  | succ fuel ih =>
    intro n acc io hp hd
    rcases n with _ | n
    · exact .some hp fun _ => hd
    refine .bind (hrefill hp hd) (fun r io₁ hp₁ hr => ?_) fun r io₁ hp₁ hr hd₁ => ?_
    · obtain rfl := not_not.mp hr
      exact .some hp₁ fun hne => absurd rfl hne
    · rcases r with _ | _ | _
      · simp only
        split
        · exact .some hp₁ fun _ => hd₁
        · exact .bind_pure fun bs _ => ih _ _ ⟨hp₁.ib, hp₁.ob, hp₁.aendpos⟩ hd₁
      · exact absurd rfl hr
      · exact .some hp₁ fun _ => hd₁

theorem probe_tells {io : Io δ} (hp : Placed fi fo io) (hd : I io.dev) :
    Tells fi fo I (fun ok => ok = true) (probe io) := by
  unfold probe
  split
  · have harm : Tells fi fo I (fun a => a ≠ .failed) (isarmor io) := by
      unfold isarmor
      rw [hp.ib]
      refine .bind_pure fun x hr => .bind_pure fun buf _ => ?_
      obtain ⟨⟨bs, fin⟩, d'⟩ := x
      simp only
      split
      · exact .some ⟨hp.ib, hp.ob, hp.aendpos⟩ fun hne => absurd rfl hne
      rename_i hfin
      have hd' := readall_tells hI hd hr hfin
      split
      · exact .some ⟨hp.ib, hp.ob, hp.aendpos⟩ fun _ => hd'
      split
      · exact .some ⟨hp.ib, hp.ob, hp.aendpos⟩ fun _ => hd'
      · exact .some ⟨hp.ib, hp.ob, hp.aendpos⟩ fun _ => hd'
    refine .bind harm (fun a io₁ hp₁ ha => ?_) fun a io₁ hp₁ ha hd₁ => ?_
    · obtain rfl := not_not.mp ha
      exact .some ⟨hp₁.ib, hp₁.ob, hp₁.aendpos⟩ fun hok => absurd rfl (of_decide_eq_true hok)
    · exact .some ⟨hp₁.ib, hp₁.ob, hp₁.aendpos⟩ fun _ => hd₁
  · exact .some hp fun _ => hd

theorem bread_tells {n : Nat} {io : Io δ} (hp : Placed fi fo io) (hd : I io.dev) :
    Tells fi fo I (fun r => r ≠ none) (bread n io) := by
  refine .bind (probe_tells hI hp hd) (fun ok io₁ hp₁ hok => ?_) fun ok io₁ hp₁ hok hd₁ => ?_
  · obtain rfl := Bool.eq_false_of_not_eq_true hok
    exact .some hp₁ fun hne => absurd rfl hne
  · obtain rfl := hok
    exact breadLoop_tells hI _ _ _ hp₁ hd₁

theorem bpeek_tells {io : Io δ} (hp : Placed fi fo io) (hd : I io.dev) :
    Tells fi fo I (fun r => r ≠ .err) (bpeek io) := by
  refine .bind (probe_tells hI hp hd) (fun ok io₁ hp₁ hok => ?_) fun ok io₁ hp₁ hok hd₁ => ?_
  · obtain rfl := Bool.eq_false_of_not_eq_true hok
    exact .some hp₁ fun hne => absurd rfl hne
  obtain rfl := hok
  simp only [not_true_eq_false, if_false]
  split
  · exact .some hp₁ fun _ => hd₁
  split
  · exact .bind_pure fun bs _ => .some hp₁ fun _ => hd₁
  refine .bind_pure fun io₂ he => ?_
  have h₂ := dropBuffer_tells hI hp₁ hd₁ he
  refine .bind (fill_tells hI h₂.1 h₂.2) (fun nr io₃ hp₃ hnr => ?_) fun nr io₃ hp₃ hnr hd₃ => ?_
  · obtain rfl := not_not.mp hnr
    exact .some hp₃ fun hne => absurd rfl hne
  · rcases nr with _ | _ | _ | n
    · exact absurd rfl hnr
    · exact .bind_pure fun bs _ => .some ⟨hp₃.ib, hp₃.ob, hp₃.aendpos⟩ fun _ => hd₃
    · exact .some ⟨hp₃.ib, hp₃.ob, hp₃.aendpos⟩ fun _ => hd₃
    · exact .bind_pure fun bs _ => .some ⟨hp₃.ib, hp₃.ob, hp₃.aendpos⟩ fun _ => hd₃

/-! ## Writing -/

theorem aflush_tells {io : Io δ} (hp : Placed fi fo io) (hd : I io.dev) :
    Tells fi fo I (fun ok => ok = true) (aflush io) := by
  unfold aflush
  split
  · exact .some hp fun _ => hd
  · rw [hp.ob]
    refine .bind_pure fun raw _ => .bind_pure fun x hw => ?_
    obtain ⟨ok, d'⟩ := x
    refine .some ⟨hp.ib, hp.ob, hp.aendpos⟩ fun hok => ?_
    obtain rfl := hok
    exact writeall_tells hI hd hw

theorem bflush_tells {io : Io δ} (hp : Placed fi fo io) (hd : I io.dev) :
    Tells fi fo I (fun ok => ok = true) (bflush io) := by
  unfold bflush
  split
  · exact aflush_tells hI hp hd
  split
  · exact .some hp fun _ => hd
  · rw [hp.ob]
    refine .bind_pure fun raw _ => .bind_pure fun x hw => ?_
    obtain ⟨ok, d'⟩ := x
    refine .some ⟨hp.ib, hp.ob, hp.aendpos⟩ fun hok => ?_
    obtain rfl := hok
    exact writeall_tells hI hd hw

theorem awriteLoop_tells (fuel : Nat) : ∀ (bs : List UInt8) {io : Io δ}, Placed fi fo io →
    I io.dev → Tells fi fo I (fun ok => ok = true) (awriteLoop fuel bs io) := by
  induction fuel with
  | zero =>
    intro bs io hp hd
    rcases bs with _ | ⟨b, bs⟩
    · exact .some hp fun _ => hd
    · exact .none
  | succ fuel ih =>
    intro bs io hp hd
    rcases bs with _ | ⟨b, bs⟩
    · exact .some hp fun _ => hd
    rw [awriteLoop]
    refine .bind_pure fun buf _ => ?_
    simp only
    split
    · refine .bind (aflush_tells hI ⟨hp.ib, hp.ob, hp.aendpos⟩ hd) (fun ok io₁ hp₁ hok => ?_)
        fun ok io₁ hp₁ hok hd₁ => ?_
      · obtain rfl := Bool.eq_false_of_not_eq_true hok
        exact .some hp₁ fun hne => absurd hne Bool.false_ne_true
      · obtain rfl := hok
        exact ih _ hp₁ hd₁
    · exact ih _ ⟨hp.ib, hp.ob, hp.aendpos⟩ hd

theorem bwrite_tells {bs : List UInt8} {io : Io δ} (hp : Placed fi fo io) (hd : I io.dev) :
    Tells fi fo I (fun ok => ok = true) (bwrite bs io) := by
  unfold bwrite
  split
  · exact awriteLoop_tells hI _ _ hp hd
  refine .bind_pure fun buf _ => ?_
  simp only
  split
  · exact .some ⟨hp.ib, hp.ob, hp.aendpos⟩ fun _ => hd
  refine .bind (bflush_tells hI ⟨hp.ib, hp.ob, hp.aendpos⟩ hd) (fun ok io₁ hp₁ hok => ?_)
    fun ok io₁ hp₁ hok hd₁ => ?_
  · obtain rfl := Bool.eq_false_of_not_eq_true hok
    exact .some hp₁ fun hne => absurd hne Bool.false_ne_true
  · obtain rfl := hok
    simp only [if_true]
    rw [hp₁.ob]
    refine .bind_pure fun x hw => ?_
    obtain ⟨ok, d'⟩ := x
    refine .some ⟨hp₁.ib, hp₁.ob, hp₁.aendpos⟩ fun hok => ?_
    obtain rfl := hok
    exact writeall_tells hI hd₁ hw

/-! ## The operations -/

/-- An operation that does not answer with a failure has met none. -/
theorem ageHandler_tells (o : AgeOp) {io : Io δ} (hp : Placed fi fo io) (hd : I io.dev) :
    Tells fi fo I (fun r => ¬ o.Refused r) (ageHandler o io) := by
  rcases o with ((n | _ | _ | _ | (e | _ | ⟨outer, inner⟩)) |
    (bs | _ | bs | _ | n | (e | _ | ⟨outer, inner⟩))) | _ | len
  · exact bread_tells hI hp hd
  · exact bpeek_tells hI hp hd
  · exact .some hp fun _ => hd
  · exact .none
  · exact .some ⟨hp.ib, hp.ob, hp.aendpos⟩ fun _ => hd
  · exact .some hp fun _ => hd
  · exact .some ⟨hp.ib, hp.ob, hp.aendpos⟩ fun _ => hd
  · exact (bwrite_tells hI hp hd).imp fun _ => Bool.eq_true_of_not_eq_false
  · exact (bflush_tells hI hp hd).imp fun _ => Bool.eq_true_of_not_eq_false
  · rintro r io' he
    obtain ⟨⟨ok, d'⟩, hw, he⟩ := Option.map_eq_some_iff.mp he
    obtain ⟨rfl, rfl⟩ := Prod.mk.inj he
    refine ⟨⟨hp.ib, hp.ob, hp.aendpos⟩, fun hr => ?_⟩
    obtain rfl : ok = true := Bool.eq_true_of_not_eq_false hr
    rw [hp.ob] at hw
    exact writeall_tells hI hd hw
  · exact .some hp fun _ => hd
  · exact .some ⟨hp.ib, hp.ob, hp.aendpos⟩ fun _ => hI.randombuf hd rfl
  · exact .some ⟨hp.ib, hp.ob, hp.aendpos⟩ fun _ => hd
  · exact .some hp fun _ => hd
  · exact .some ⟨hp.ib, hp.ob, hp.aendpos⟩ fun _ => hd
  · exact (recstop_tells hI hp hd).imp fun _ _ => trivial
  · rintro r io' he
    obtain ⟨bs, -, he⟩ := Option.map_eq_some_iff.mp he
    obtain ⟨-, rfl⟩ := Prod.mk.inj he
    exact ⟨hp, fun _ => hd⟩

end Calls

/-- No operation moves the descriptors or leaves the ending line. -/
theorem ageHandler_placed {o : AgeOp} {io io' : Io δ} {r : AgeRet o} (hp : Placed fi fo io)
    (h : ageHandler o io = some (r, io')) : Placed fi fo io' := by
  have hI : Unfailing fi fo (fun _ : δ => True) :=
    ⟨fun _ _ => trivial, fun _ _ => trivial, fun _ _ => trivial, fun _ _ => trivial⟩
  exact (ageHandler_tells hI o hp trivial r io' h).1

/-- Some operation of the program moves the count. -/
def Interrupted (count : δ → Nat) {α : Type} (p : Age α) (io : Io δ) : Prop :=
  ProgE.Faces ageHandler (fun _ io _ io' => count io'.dev ≠ count io.dev) p io

/-- The program learns of the calls that are counted. -/
theorem Interrupted.refused {count : δ → Nat} (hI : ∀ n, Unfailing fi fo fun d => count d = n)
    {α : Type} {p : Age α} {io : Io δ} (hp : Placed fi fo io) (h : Interrupted count p io) :
    ProgE.Faces ageHandler (fun o _ r _ => o.Refused r) p io := by
  refine ProgE.Faces.imp (h := ageHandler) (Q := Placed fi fo)
    (fun o io₁ r io₂ hp₁ ho => ageHandler_placed hp₁ ho) (fun o io₁ r io₂ hp₁ ho => ?_) hp h
  contrapose!
  exact (ageHandler_tells (hI (count io₁.dev)) o hp₁ rfl r io₂ ho).2

end Agecrypt
