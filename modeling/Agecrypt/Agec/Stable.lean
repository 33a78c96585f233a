import Agecrypt.Agec.Ops

/-!
# What every call of the system keeps

A property of the system below that no call on the two descriptors breaks
holds after every function of the codec, whatever the buffers contain and
whether or not a call fails.
-/

namespace Agecrypt

variable {δ : Type} [Descr δ]

/-- Every call on the descriptors `fi` and `fo` keeps `I`. -/
structure Stable (fi fo : Int) (I : δ → Prop) : Prop where
  ageread : ∀ {d n r d'}, I d → 0 < n → Descr.ageread fi n d = (r, d') → I d'
  agewrite : ∀ {d bs r d'}, I d → bs ≠ [] → Descr.agewrite fo bs d = some (r, d') → I d'
  alloc : ∀ {d n r d'}, I d → Descr.alloc n d = (r, d') → I d'
  randombuf : ∀ {d n r d'}, I d → Descr.randombuf n d = (r, d') → I d'

/-- The property of a state of the codec: the descriptors are in place. -/
structure Stays (fi fo : Int) (I : δ → Prop) (io : Io δ) : Prop where
  dev : I io.dev
  ib : io.ib.fd = fi
  ob : io.ob.fd = fo

/-- The property of the outcome of a function. -/
def Ends {α σ : Type} (P : σ → Prop) (x : Option (α × σ)) : Prop :=
  ∀ r s, x = some (r, s) → P s

namespace Ends

variable {α β σ τ : Type} {P : σ → Prop} {Q : τ → Prop}

theorem none : Ends (α := α) P none := by
  intro r s h
  cases h

theorem some {r : α} {s : σ} (h : P s) : Ends P (Option.some (r, s)) := by
  intro r' s' he
  obtain ⟨-, rfl⟩ : r = r' ∧ s = s' := by simpa using he
  exact h

theorem bind {x : Option (α × σ)} {f : α × σ → Option (β × τ)} (h : Ends P x)
    (hf : ∀ r s, P s → Ends Q (f (r, s))) : Ends Q (x.bind f) := by
  rcases x with _ | ⟨r, s⟩
  · exact none
  · exact hf r s (h r s rfl)

/-- After a step that may have no outcome. -/
theorem bind_pure {γ : Type} {x : Option γ} {f : γ → Option (β × τ)}
    (hf : ∀ c, x = Option.some c → Ends Q (f c)) : Ends Q (x.bind f) := by
  rcases x with _ | c
  · exact none
  · exact hf c rfl

end Ends

variable {fi fo : Int} {I : δ → Prop}

theorem errHandler_stable {o : ErrOp} {io : Io δ} (h : Stays fi fo I io) :
    Stays fi fo I (errHandler o io).2 := by
  rcases o with e | _ | ⟨outer, inner⟩ <;> exact ⟨h.dev, h.ib, h.ob⟩

section Calls

variable (hI : Stable fi fo I)

include hI

theorem readall_stable {n : Nat} {d : δ} (hd : I d) : Ends I (readall fi n d) := by
  have hloop : ∀ fuel n acc d, I d → Ends I (readallLoop fi fuel n acc d) := by
    intro fuel
    induction fuel with
    | zero =>
      intro n acc d hd
      rcases n with _ | n
      · exact .some hd
      · exact .none
    | succ fuel ih =>
      intro n acc d hd
      rcases n with _ | n
      · exact .some hd
      rw [readallLoop]
      rcases h : Descr.ageread fi (n + 1) d with ⟨_ | _ | ⟨b, bs⟩, d'⟩
      · exact .some (hI.ageread hd (Nat.succ_pos n) h)
      · exact .some (hI.ageread hd (Nat.succ_pos n) h)
      · exact ih _ _ _ (hI.ageread hd (Nat.succ_pos n) h)
  exact hloop _ _ _ _ hd

theorem writeall_stable {bs : List UInt8} {d : δ} (hd : I d) : Ends I (writeall fo bs d) := by
  have hloop : ∀ fuel bs d, I d → Ends I (writeallLoop fo fuel bs d) := by
    intro fuel
    induction fuel with
    | zero =>
      intro bs d hd
      rcases bs with _ | ⟨b, bs⟩
      · exact .some hd
      · exact .none
    | succ fuel ih =>
      intro bs d hd
      rcases bs with _ | ⟨b, bs⟩
      · exact .some hd
      rw [writeallLoop]
      rcases h : Descr.agewrite fo (b :: bs) d with _ | ⟨_ | _ | k, d'⟩
      · exact .none
      · exact .some (hI.agewrite hd (by simp) h)
      · exact .some (hI.agewrite hd (by simp) h)
      · exact ih _ _ (hI.agewrite hd (by simp) h)
  exact hloop _ _ _ hd

/-! ## The recording -/

theorem recgrow_stable (src : List UInt8) {io : Io δ} (h : Stays fi fo I io) :
    Stays fi fo I (recgrow src io) := by
  unfold recgrow
  simp only
  split
  · split
    · exact ⟨h.dev, h.ib, h.ob⟩
    · rcases ha : Descr.alloc _ io.dev with ⟨_ | _, d'⟩ <;>
        exact ⟨hI.alloc h.dev ha, h.ib, h.ob⟩
  · exact ⟨h.dev, h.ib, h.ob⟩

theorem recappend_stable (src : List UInt8) {io : Io δ} (h : Stays fi fo I io) :
    Stays fi fo I (recappend src io) := by
  unfold recappend
  split
  · exact h
  split
  · rcases ha : Descr.alloc RECINITLEN io.dev with ⟨_ | _, d'⟩
    · exact ⟨hI.alloc h.dev ha, h.ib, h.ob⟩
    · exact recgrow_stable hI src ⟨hI.alloc h.dev ha, h.ib, h.ob⟩
  · exact recgrow_stable hI src h

theorem recstop_stable {io : Io δ} (h : Stays fi fo I io) :
    Ends (Stays fi fo I) (recstop io) := by
  unfold recstop
  simp only
  split
  · exact .some ⟨h.dev, h.ib, h.ob⟩
  split
  · exact .some ⟨h.dev, h.ib, h.ob⟩
  · refine .bind_pure fun src _ => .some ?_
    have hr := recappend_stable hI src
      (show Stays fi fo I { io with ib := { io.ib with recording := false } } from
        ⟨h.dev, h.ib, h.ob⟩)
    exact ⟨hr.dev, hr.ib, hr.ob⟩

/-! ## Reading -/

theorem endskip_stable {endpos : Nat} {d : δ} (hd : I d) : Ends I (endskip fi endpos d) := by
  unfold endskip
  refine .bind (readall_stable hI hd) fun r d hd => ?_
  simp only
  split
  · exact .some hd
  split
  · exact .some hd
  split
  · exact .some hd
  rcases h : Descr.ageread fi 1 d with ⟨_ | _ | ⟨b, bs⟩, d'⟩ <;>
    exact .some (hI.ageread hd Nat.one_pos h)

theorem areadBlock_stable (raw : List UInt8) {io : Io δ} (h : Stays fi fo I io) :
    Ends (Stays fi fo I) (areadBlock raw io) := by
  unfold areadBlock
  simp only
  split
  · exact .some ⟨h.dev, h.ib, h.ob⟩
  split
  · exact .some ⟨h.dev, h.ib, h.ob⟩
  refine .bind_pure fun abuf _ => ?_
  split
  · rw [h.ib]
    exact .bind (endskip_stable hI h.dev) fun r d hd => .some ⟨hd, rfl, h.ob⟩
  split
  · rw [h.ib]
    rcases hr : Descr.ageread fi 1 io.dev with ⟨_ | _ | ⟨b, bs⟩, d'⟩ <;>
      exact .some ⟨hI.ageread h.dev Nat.one_pos hr, rfl, h.ob⟩
  · exact .some ⟨h.dev, h.ib, h.ob⟩

theorem areadRefill_stable (off : Nat) {io : Io δ} (h : Stays fi fo I io) :
    Ends (Stays fi fo I) (areadRefill off io) := by
  unfold areadRefill
  rw [h.ib]
  rcases hr : readall fi IOABUFREADSIZE io.dev with _ | ⟨⟨raw, fin⟩, d'⟩
  · exact .none
  have hd := readall_stable hI h.dev _ _ hr
  simp only
  split
  · exact .some ⟨hd, h.ib, h.ob⟩
  split
  · split <;> exact .some ⟨hd, h.ib, h.ob⟩
  · exact areadBlock_stable hI raw ⟨hd, h.ib, h.ob⟩

theorem areadLoop_stable (fuel : Nat) : ∀ (n off : Nat) {io : Io δ}, Stays fi fo I io →
    Ends (Stays fi fo I) (areadLoop fuel n off io) := by
  induction fuel with
  | zero =>
    intro n off io h
    rcases n with _ | n
    · exact .some h
    · exact .none
  | succ fuel ih =>
    intro n off io h
    rcases n with _ | n
    · exact .some h
    have hfetch : Ends (Stays fi fo I) (areadFetch off io) := by
      unfold areadFetch
      simp only
      split <;> split
      · exact areadRefill_stable hI off ⟨h.dev, h.ib, h.ob⟩
      · exact .some ⟨h.dev, h.ib, h.ob⟩
      · exact areadRefill_stable hI off h
      · exact .some h
    refine .bind hfetch fun r io₁ h₁ => ?_
    rcases r with _ | r
    · exact .bind_pure fun bs _ => .bind_pure fun buf _ => ih _ _ ⟨h₁.dev, h₁.ib, h₁.ob⟩
    · exact .some h₁

theorem fill_stable {io : Io δ} (h : Stays fi fo I io) : Ends (Stays fi fo I) (fill io) := by
  unfold fill
  split
  · exact areadLoop_stable hI _ _ _ h
  rw [h.ib]
  rcases hr : Descr.ageread fi IOBUFSIZE io.dev with ⟨_ | bs, d'⟩
  · exact .some ⟨hI.ageread h.dev (by decide) hr, h.ib, h.ob⟩
  · exact .bind_pure fun buf _ => .some ⟨hI.ageread h.dev (by decide) hr, h.ib, h.ob⟩

theorem dropBuffer_stable {io io' : Io δ} (h : Stays fi fo I io) (he : dropBuffer io = some io') :
    Stays fi fo I io' := by
  unfold dropBuffer at he
  split at he
  · obtain ⟨src, -, he⟩ := Option.bind_eq_some_iff.mp he
    have hr := recappend_stable hI src h
    rw [← Option.some.inj he]
    exact ⟨hr.dev, hr.ib, hr.ob⟩
  · rw [← Option.some.inj he]
    exact ⟨h.dev, h.ib, h.ob⟩

theorem breadLoop_stable (fuel : Nat) : ∀ (n : Nat) (acc : List UInt8) {io : Io δ},
    Stays fi fo I io → Ends (Stays fi fo I) (breadLoop fuel n acc io) := by
  have hfetch : ∀ {io : Io δ}, Stays fi fo I io → Ends (Stays fi fo I) (breadFetch io) := by
    intro io h
    unfold breadFetch
    split
    · refine .bind (fill_stable hI h) fun nr io₁ h₁ => ?_
      rcases nr with _ | _ | _ | n <;> exact .some ⟨h₁.dev, h₁.ib, h₁.ob⟩
    · exact .some h
  have hrefill : ∀ {io : Io δ}, Stays fi fo I io → Ends (Stays fi fo I) (breadRefill io) := by
    intro io h
    unfold breadRefill
    split
    · exact .bind_pure fun io₁ he => hfetch (dropBuffer_stable hI h he)
    · exact hfetch h
  induction fuel with
  | zero =>
    intro n acc io h
    rcases n with _ | n
    · exact .some h
    · exact .none
  | succ fuel ih =>
    intro n acc io h
    rcases n with _ | n
    · exact .some h
    refine .bind (hrefill h) fun r io₁ h₁ => ?_
    rcases r with _ | _ | _
    · simp only
      split
      · exact .some h₁
      · exact .bind_pure fun bs _ => ih _ _ ⟨h₁.dev, h₁.ib, h₁.ob⟩
    · exact .some h₁
    · exact .some h₁

theorem probe_stable {io : Io δ} (h : Stays fi fo I io) : Ends (Stays fi fo I) (probe io) := by
  unfold probe
  split
  · have harm : Ends (Stays fi fo I) (isarmor io) := by
      unfold isarmor
      rw [h.ib]
      refine .bind (readall_stable hI h.dev) fun r d hd => .bind_pure fun buf _ => ?_
      simp only
      split
      · exact .some ⟨hd, h.ib, h.ob⟩
      split
      · exact .some ⟨hd, h.ib, h.ob⟩
      split <;> exact .some ⟨hd, h.ib, h.ob⟩
    exact .bind harm fun r io₁ h₁ => .some ⟨h₁.dev, h₁.ib, h₁.ob⟩
  · exact .some h

theorem bread_stable {n : Nat} {io : Io δ} (h : Stays fi fo I io) :
    Ends (Stays fi fo I) (bread n io) := by
  refine .bind (probe_stable hI h) fun r io₁ h₁ => ?_
  simp only
  split
  · exact breadLoop_stable hI _ _ _ h₁
  · exact .some h₁

theorem bpeek_stable {io : Io δ} (h : Stays fi fo I io) : Ends (Stays fi fo I) (bpeek io) := by
  refine .bind (probe_stable hI h) fun r io₁ h₁ => ?_
  simp only
  split
  · exact .some h₁
  split
  · exact .some h₁
  split
  · exact .bind_pure fun bs _ => .some h₁
  refine .bind_pure fun io₂ he => ?_
  refine .bind (fill_stable hI (dropBuffer_stable hI h₁ he)) fun nr io₃ h₃ => ?_
  rcases nr with _ | _ | _ | n
  · exact .some h₃
  · exact .bind_pure fun bs _ => .some ⟨h₃.dev, h₃.ib, h₃.ob⟩
  · exact .some ⟨h₃.dev, h₃.ib, h₃.ob⟩
  · exact .bind_pure fun bs _ => .some ⟨h₃.dev, h₃.ib, h₃.ob⟩

/-! ## Writing -/

theorem aflush_stable {io : Io δ} (h : Stays fi fo I io) : Ends (Stays fi fo I) (aflush io) := by
  unfold aflush
  split
  · exact .some h
  · rw [h.ob]
    exact .bind_pure fun raw _ => .bind (writeall_stable hI h.dev) fun r d hd =>
      .some ⟨hd, h.ib, h.ob⟩

theorem bflush_stable {io : Io δ} (h : Stays fi fo I io) : Ends (Stays fi fo I) (bflush io) := by
  unfold bflush
  split
  · exact aflush_stable hI h
  split
  · exact .some h
  · rw [h.ob]
    exact .bind_pure fun raw _ => .bind (writeall_stable hI h.dev) fun r d hd =>
      .some ⟨hd, h.ib, h.ob⟩

theorem awriteLoop_stable (fuel : Nat) : ∀ (bs : List UInt8) {io : Io δ}, Stays fi fo I io →
    Ends (Stays fi fo I) (awriteLoop fuel bs io) := by
  induction fuel with
  | zero =>
    intro bs io h
    rcases bs with _ | ⟨b, bs⟩
    · exact .some h
    · exact .none
  | succ fuel ih =>
    intro bs io h
    rcases bs with _ | ⟨b, bs⟩
    · exact .some h
    rw [awriteLoop]
    refine .bind_pure fun buf _ => ?_
    simp only
    split
    · refine .bind (aflush_stable hI ⟨h.dev, h.ib, h.ob⟩) fun r io₁ h₁ => ?_
      simp only
      split
      · exact ih _ h₁
      · exact .some h₁
    · exact ih _ ⟨h.dev, h.ib, h.ob⟩

theorem bwrite_stable {bs : List UInt8} {io : Io δ} (h : Stays fi fo I io) :
    Ends (Stays fi fo I) (bwrite bs io) := by
  unfold bwrite
  split
  · exact awriteLoop_stable hI _ _ h
  refine .bind_pure fun buf _ => ?_
  simp only
  split
  · exact .some ⟨h.dev, h.ib, h.ob⟩
  refine .bind (bflush_stable hI ⟨h.dev, h.ib, h.ob⟩) fun r io₁ h₁ => ?_
  simp only
  split
  · rw [h₁.ob]
    exact .bind (writeall_stable hI h₁.dev) fun r d hd => .some ⟨hd, h₁.ib, h₁.ob⟩
  · exact .some h₁

/-! ## The operations -/

theorem rwHandler_stable (o : RwOp) {io : Io δ} (h : Stays fi fo I io) :
    Ends (Stays fi fo I) (rwHandler o io) := by
  rcases o with (n | _ | _ | _ | o) | (bs | _ | bs | _ | n | o)
  · exact bread_stable hI h
  · exact bpeek_stable hI h
  · exact .some h
  · exact .none
  · exact .some (errHandler_stable h)
  · exact bwrite_stable hI h
  · exact bflush_stable hI h
  · rintro r s he
    obtain ⟨⟨ok, d⟩, hw, he⟩ := Option.map_eq_some_iff.mp he
    obtain ⟨-, rfl⟩ := Prod.mk.inj he
    rw [h.ob] at hw
    exact ⟨writeall_stable hI h.dev _ _ hw, h.ib, h.ob⟩
  · exact .some h
  · exact .some ⟨hI.randombuf h.dev rfl, h.ib, h.ob⟩
  · exact .some (errHandler_stable h)

/-- Every operation keeps what every call of the system keeps. -/
theorem ageHandler_stable (o : AgeOp) {io : Io δ} (h : Stays fi fo I io) :
    Ends (Stays fi fo I) (ageHandler o io) := by
  rcases o with o | _ | len
  · exact rwHandler_stable hI o h
  · exact recstop_stable hI h
  · rintro r s he
    obtain ⟨bs, -, he⟩ := Option.map_eq_some_iff.mp he
    obtain ⟨-, rfl⟩ := Prod.mk.inj he
    exact h

end Calls

end Agecrypt
