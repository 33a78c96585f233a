import Agecrypt.Package.Streaming

/-!
# The class of a failed file operation

`run_file_transform` answers `io` when it cannot open its files and when it
cannot put the result in place.  In between it takes every error of the
transform for an error of its input.  The transform gives up with such an
error when a read or a write fails, so the class is wrong then; it is wrong
as well when an input is rejected in a call in which something else failed.
-/

namespace Agecrypt

open ProgE (Runs IsError runs_pure runs_throw runs_op_bind runs_bind runs_attempt_bind)
open Pkg (age)

/-! ## The schedule of a call -/

/-- One of the calls that clean up is to fail. -/
def UncleanSchedule (s : Sys) : Prop :=
  (∃ k < 2, ∃ e, s.calls .close k = .fail e) ∨ ∃ e, s.calls .unlink 0 = .fail e

/-- Another process takes the name away before the third call finds it. -/
def TakenAway (p : Path) (s : Sys) : Prop := (s.others 2 (s.others 1 s.found)).dir p = none

section

variable (m : Memory) (inp outp : Path) (isarmor recording overwrite : Bool) (fn : Age Unit)
  (failClass : String)

/-- A read or a write of the streaming fails, or the transform rejects its
input though another call fails: a temporary name was taken, there is no
memory or there are no random bytes, or the clean-up fails.  R has the
memory for the result. -/
def Misclassified (io : Io Sys) : Prop :=
  ∃ infd tmpfd tmppath t, Streaming m inp outp isarmor recording io infd tmpfd tmppath t ∧
    (∀ k < 3, io.dev.rallocs k = true) ∧
    (Interrupted Sys.failed fn t ∨
      ∃ e t', Runs pkgHandler (age fn) t (.error e) t' ∧
        (t.dev.failed ≠ io.dev.failed ∨ Interrupted Sys.denied fn t ∨
          UncleanSchedule t.dev ∨ TakenAway tmppath t'.dev))

/-- The transform ends with an error though nothing that it asked for was
refused. -/
def RejectedBy (io : Io Sys) : Prop :=
  ∃ infd tmpfd tmppath t e t', Streaming m inp outp isarmor recording io infd tmpfd tmppath t ∧
    Runs pkgHandler (age fn) t (.error e) t' ∧
    t'.dev.failed = t.dev.failed ∧ t'.dev.denied = t.dev.denied

/-- A call that fails says by its class whether it was the system or the
input. -/
def ToldApart (io : Io Sys) : Prop :=
  ∀ cls msg io', Runs pkgHandler
      (runFileTransform m inp outp isarmor recording overwrite fn failClass) io
      (.ok (.err cls msg)) io' →
    (io'.dev.failed ≠ io.dev.failed → cls = "io") ∧
    (cls = failClass → io'.dev.failed = io.dev.failed ∧
      RejectedBy m inp outp isarmor recording fn io)

end

/-! ## Results -/

/-- Behind an allocation of R. -/
def tookRalloc (io : Io Sys) : Io Sys :=
  { io with dev := { io.dev with rallocs := fun i => io.dev.rallocs (i + 1) } }

theorem runs_ralloc_bind {α : Type} {p : Pkg α} {io io' : Io Sys} {a : α} :
    Runs pkgHandler (Pkg.ralloc >>= fun _ => p) io (.ok a) io' ↔
      io.dev.rallocs 0 = true ∧ Runs pkgHandler p (tookRalloc io) (.ok a) io' := by
  have hstep : pkgHandler .ralloc io = some (io.dev.rallocs 0, tookRalloc io) := rfl
  constructor
  · intro hr
    rcases runs_bind.mp hr with ⟨e, -, he⟩ | ⟨_, t, hal, hr⟩
    · cases he
    obtain ⟨b, t', hb, hal⟩ := runs_op_bind.mp hal
    obtain ⟨rfl, rfl⟩ := Prod.mk.inj (Option.some.inj (hstep.symm.trans hb))
    cases hok : io.dev.rallocs 0 with
    | false =>
      rw [hok] at hal
      cases (runs_throw.mp hal).1
    | true =>
      rw [hok] at hal
      obtain ⟨-, rfl⟩ := runs_pure.mp hal
      exact ⟨rfl, hr⟩
  · rintro ⟨hok, hr⟩
    refine runs_bind.mpr (.inr ⟨(), tookRalloc io, ?_, hr⟩)
    refine runs_op_bind.mpr ⟨true, tookRalloc io, by rw [hstep, hok], ?_⟩
    exact runs_pure.mpr ⟨rfl, rfl⟩

/-- `result_err` answers when R has the memory for the three parts, and makes
no call of the system. -/
theorem runs_resultErr {cls msg : String} {io io' : Io Sys} {res : Result} :
    Runs pkgHandler (resultErr cls msg) io (.ok res) io' ↔
      (∀ k, k < 3 → io.dev.rallocs k = true) ∧ res = .err cls msg ∧
        io' = tookRalloc (tookRalloc (tookRalloc io)) := by
  rw [resultErr, runs_ralloc_bind, runs_ralloc_bind, runs_ralloc_bind, runs_pure]
  constructor
  · rintro ⟨h0, h1, h2, hres, hio⟩
    refine ⟨fun k hk => ?_, Except.ok.inj hres, hio⟩
    match k, hk with
    | 0, _ => exact h0
    | 1, _ => exact h1
    | 2, _ => exact h2
  · rintro ⟨h, hres, hio⟩
    exact ⟨h 0 (by decide), h 1 (by decide), h 2 (by decide), congrArg Except.ok hres, hio⟩

theorem failed_resultErr {cls msg : String} {io io' : Io Sys} {res : Result}
    (hr : Runs pkgHandler (resultErr cls msg) io (.ok res) io') :
    io'.dev.failed = io.dev.failed := by
  rw [(runs_resultErr.mp hr).2.2]
  rfl

/-! ## The clean-up -/

/-- The system behind the calls that clean up after a rejection. -/
def cleanedUp (infd tmpfd : Int) (tmppath : Path) (s : Sys) : Sys :=
  (Sys.unlink tmppath (Sys.close tmpfd (Sys.close infd s).2).2).2

section

variable {infd tmpfd fd : Int} {tmppath : Path} {s : Sys}

/-- A `close` leaves everything to the next call but its descriptor and its
verdict. -/
structure Closed (fd : Int) (s t : Sys) : Prop where
  fds : t.fds = Function.update s.fds fd none
  calls : t.calls = Function.update s.calls .close fun i => s.calls .close (i + 1)
  disk : t.disk = s.found
  others : t.others = fun i => s.others (i + 1)
  rallocs : t.rallocs = s.rallocs

theorem closed_close (fd : Int) (s : Sys) : Closed fd s (s.close fd).2 := by
  rw [Sys.close, Sys.syscall]
  cases s.calls .close 0 with
  | fail e => exact ⟨rfl, rfl, rfl, rfl, rfl⟩
  | ok count =>
    rw [Sys.act]
    cases ((s.arrive .close).fds fd).isSome <;> exact ⟨rfl, rfl, rfl, rfl, rfl⟩

theorem close_eq_none : (s.close fd).1 = none ↔
    (∃ e, s.calls .close 0 = .fail e) ∨ s.fds fd = none := by
  have hfds : (s.arrive .close).fds fd = s.fds fd := rfl
  rw [Sys.close, Sys.syscall]
  cases s.calls .close 0 with
  | fail e => simp [Sys.act, Sys.finish]
  | ok count =>
    rw [Sys.act, hfds]
    cases s.fds fd <;> simp [Sys.finish]

theorem failed_close : (s.close fd).2.failed =
    if (s.close fd).1 = none then s.failed + 1 else s.failed :=
  Sys.failed_syscall .close (fun _ _ => rfl) s

theorem unlink_eq_none : (s.unlink tmppath).1 = none ↔
    (∃ e, s.calls .unlink 0 = .fail e) ∨ s.found.dir tmppath = none := by
  have hdir : (s.arrive .unlink).disk.dir tmppath = s.found.dir tmppath := rfl
  rw [Sys.unlink, Sys.syscall]
  cases s.calls .unlink 0 with
  | fail e => simp [Sys.act, Sys.finish]
  | ok count =>
    rw [Sys.act, hdir]
    cases s.found.dir tmppath <;> simp [Sys.finish]

theorem failed_unlink : (s.unlink tmppath).2.failed =
    if (s.unlink tmppath).1 = none then s.failed + 1 else s.failed := by
  refine Sys.failed_syscall .unlink (fun _ s => ?_) s
  split <;> rfl

theorem rallocs_cleanedUp : (cleanedUp infd tmpfd tmppath s).rallocs = s.rallocs := by
  have hunlink : ∀ u : Sys, (u.unlink tmppath).2.rallocs = u.rallocs := by
    intro u
    rw [Sys.unlink, Sys.syscall]
    cases u.calls .unlink 0 with
    | fail e => rfl
    | ok count =>
      rw [Sys.act]
      split <;> rfl
  rw [cleanedUp, hunlink, (closed_close tmpfd _).rallocs, (closed_close infd s).rallocs]

/-- The clean-up counts a failure when the schedule has one for it, or when
the temporary file has lost its name. -/
theorem failed_cleanedUp (hapart : infd ≠ tmpfd) (hin : (s.fds infd).isSome)
    (hout : (s.fds tmpfd).isSome) :
    s.failed ≤ (cleanedUp infd tmpfd tmppath s).failed ∧
      ((cleanedUp infd tmpfd tmppath s).failed ≠ s.failed ↔
        UncleanSchedule s ∨ TakenAway tmppath s) := by
  obtain ⟨hfds₁, hcalls₁, hdisk₁, hothers₁, -⟩ := closed_close infd s
  obtain ⟨hfds₂, hcalls₂, hdisk₂, hothers₂, -⟩ := closed_close tmpfd (s.close infd).2
  have hinput : (s.close infd).1 = none ↔ ∃ e, s.calls .close 0 = .fail e := by
    rw [close_eq_none]
    exact or_iff_left (Option.isSome_iff_ne_none.mp hin)
  have houtput : ((s.close infd).2.close tmpfd).1 = none ↔ ∃ e, s.calls .close 1 = .fail e := by
    rw [close_eq_none, hfds₁, hcalls₁, Function.update_self, Function.update_of_ne hapart.symm]
    exact or_iff_left (Option.isSome_iff_ne_none.mp hout)
  have hname : (((s.close infd).2.close tmpfd).2.unlink tmppath).1 = none ↔
      (∃ e, s.calls .unlink 0 = .fail e) ∨ TakenAway tmppath s := by
    rw [unlink_eq_none, hcalls₂, Function.update_of_ne (by decide), hcalls₁,
      Function.update_of_ne (by decide), Sys.found, hdisk₂, hothers₂, Sys.found, hdisk₁, hothers₁]
    rfl
  have hclose : (∃ k < 2, ∃ e, s.calls .close k = .fail e) ↔
      (∃ e, s.calls .close 0 = .fail e) ∨ ∃ e, s.calls .close 1 = .fail e := by
    constructor
    · rintro ⟨k, hk, he⟩
      rcases k with _ | _ | k
      · exact .inl he
      · exact .inr he
      · omega
    · rintro (he | he)
      · exact ⟨0, by decide, he⟩
      · exact ⟨1, by decide, he⟩
  rw [UncleanSchedule, hclose, ← hinput, ← houtput, or_assoc, ← hname, cleanedUp, failed_unlink,
    failed_close, failed_close]
  split <;> split <;> split <;> simp_all <;> omega

end

/-! ## The parts of a call -/

/-- `discard_output` behind the `close` of the input. -/
theorem runs_cleanup {infd tmpfd : Int} {tmppath : Path} {io io' : Io Sys} {p : Pkg Result}
    {r : Except String Result} :
    Runs pkgHandler (Pkg.op (.close infd) >>= fun _ => discardOutput tmpfd tmppath >>= fun _ => p)
        io r io' ↔
      Runs pkgHandler p { io with dev := cleanedUp infd tmpfd tmppath io.dev } r io' := by
  unfold discardOutput
  constructor
  · intro hr
    obtain ⟨_, s₁, h₁, hr⟩ := runs_op_bind.mp hr
    obtain ⟨-, rfl⟩ := Prod.mk.inj (Option.some.inj h₁)
    rcases runs_bind.mp hr with ⟨e, he, -⟩ | ⟨_, s₂, hd, hr⟩
    · obtain ⟨_, s₃, -, he⟩ := runs_op_bind.mp he
      obtain ⟨_, s₄, -, he⟩ := runs_op_bind.mp he
      cases (runs_pure.mp he).1
    · obtain ⟨_, s₃, h₃, hd⟩ := runs_op_bind.mp hd
      obtain ⟨-, rfl⟩ := Prod.mk.inj (Option.some.inj h₃)
      obtain ⟨_, s₄, h₄, hd⟩ := runs_op_bind.mp hd
      obtain ⟨-, rfl⟩ := Prod.mk.inj (Option.some.inj h₄)
      obtain ⟨-, rfl⟩ := runs_pure.mp hd
      exact hr
  · intro hr
    refine runs_op_bind.mpr ⟨_, _, rfl, runs_bind.mpr (.inr ⟨(), _, ?_, hr⟩)⟩
    refine runs_op_bind.mpr ⟨_, _, rfl, runs_op_bind.mpr ⟨_, _, rfl, ?_⟩⟩
    exact runs_pure.mpr ⟨rfl, rfl⟩

/-- `result_ok` is no error. -/
theorem resultOk_ne_err {payload : Sexp} {io io' : Io Sys} {cls msg : String} :
    ¬ Runs pkgHandler (resultOk payload) io (.ok (.err cls msg)) io' := by
  intro hr
  rw [resultOk, runs_ralloc_bind, runs_ralloc_bind, runs_pure] at hr
  cases hr.2.2.1

section

variable {m : Memory} {inp outp : Path} {isarmor recording overwrite : Bool} {fn : Age Unit}
  {failClass : String} {io : Io Sys}

/-- A call that fails does so with `io`, or with the class of the transform
behind an error of it. -/
theorem runFileTransform_err {cls msg : String} {io' : Io Sys}
    (hr : Runs pkgHandler (runFileTransform m inp outp isarmor recording overwrite fn failClass) io
      (.ok (.err cls msg)) io') :
    cls = "io" ∨ ∃ infd tmpfd tmppath t e t',
      Streaming m inp outp isarmor recording io infd tmpfd tmppath t ∧
      Runs pkgHandler (age fn) t (.error e) t' ∧ cls = failClass ∧
      (∀ k, k < 3 → (cleanedUp infd tmpfd tmppath t'.dev).rallocs k = true) ∧
      io'.dev.failed = (cleanedUp infd tmpfd tmppath t'.dev).failed := by
  -- an answer of `result_err "io"`
  have hio : ∀ {msg' : String} {s : Io Sys},
      Runs pkgHandler (resultErr "io" msg') s (.ok (.err cls msg)) io' → cls = "io" := by
    intro msg' s hr
    exact (Result.err.inj (runs_resultErr.mp hr).2.1).1
  unfold runFileTransform at hr
  obtain ⟨ok, s₁, hmalloc, hr⟩ := runs_op_bind.mp hr
  cases ok with
  | false => exact .inl (hio hr)
  | true =>
  rw [if_neg (not_not.mpr rfl)] at hr
  obtain ⟨fd, s₂, hopen, hr⟩ := runs_op_bind.mp hr
  cases fd with
  | none =>
    rcases runs_bind.mp hr with ⟨e, -, he⟩ | ⟨emsg, s₃, -, hr⟩
    · cases he
    · exact .inl (hio hr)
  | some infd =>
  rcases runs_bind.mp hr with ⟨e, -, he⟩ | ⟨tmp, s₃, htemp, hr⟩
  · cases he
  cases tmp with
  | none =>
    rcases runs_bind.mp hr with ⟨e, -, he⟩ | ⟨emsg, s₄, -, hr⟩
    · cases he
    · obtain ⟨_, s₅, -, hr⟩ := runs_op_bind.mp hr
      exact .inl (hio hr)
  | some tmp =>
  obtain ⟨tmpfd, tmppath⟩ := tmp
  obtain ⟨_, s₄, hib, hr⟩ := runs_op_bind.mp hr
  obtain ⟨_, t, hob, hr⟩ := runs_op_bind.mp hr
  obtain ⟨x, t', hfn, hr⟩ := runs_attempt_bind.mp hr
  cases x with
  | error e =>
    have hend := runs_cleanup.mp hr
    obtain ⟨hrallocs, hres, -⟩ := runs_resultErr.mp hend
    exact .inr ⟨infd, tmpfd, tmppath, t, e, t',
      ⟨s₁, s₂, s₃, hmalloc, hopen, htemp, s₄, hib, hob⟩, hfn, (Result.err.inj hres).1, hrallocs,
      failed_resultErr hend⟩
  | ok _ =>
    obtain ⟨_, s₅, -, hr⟩ := runs_op_bind.mp hr
    rcases runs_bind.mp hr with ⟨e, -, he⟩ | ⟨done, s₆, -, hr⟩
    · cases he
    cases done with
    | some msg' => exact .inl (hio hr)
    | none => exact absurd (runs_ralloc_bind.mp hr).2 resultOk_ne_err

/-- An error of the transform is answered with its class. -/
theorem runFileTransform_rejects (overwrite : Bool) (failClass : String) {infd tmpfd : Int}
    {tmppath : Path} {t t' : Io Sys} {e : String}
    (ht : Streaming m inp outp isarmor recording io infd tmpfd tmppath t)
    (hfn : Runs pkgHandler (age fn) t (.error e) t')
    (hrallocs : ∀ k, k < 3 → (cleanedUp infd tmpfd tmppath t'.dev).rallocs k = true) :
    ∃ msg io', Runs pkgHandler
        (runFileTransform m inp outp isarmor recording overwrite fn failClass) io
        (.ok (.err failClass msg)) io' ∧
      io'.dev.failed = (cleanedUp infd tmpfd tmppath t'.dev).failed := by
  obtain ⟨s₁, s₂, s₃, hmalloc, hopen, htemp, s₄, hib, hob⟩ := ht.opened
  have hend : Runs pkgHandler (resultErr failClass (copyerr 256 e))
      { t' with dev := cleanedUp infd tmpfd tmppath t'.dev }
      (.ok (.err failClass (copyerr 256 e))) _ :=
    runs_resultErr.mpr ⟨hrallocs, rfl, rfl⟩
  refine ⟨copyerr 256 e, _, ?_, failed_resultErr hend⟩
  unfold runFileTransform
  refine runs_op_bind.mpr ⟨true, s₁, hmalloc, ?_⟩
  rw [if_neg (not_not.mpr rfl)]
  refine runs_op_bind.mpr ⟨some infd, s₂, hopen, ?_⟩
  refine runs_bind.mpr (.inr ⟨some (tmpfd, tmppath), s₃, htemp, ?_⟩)
  refine runs_op_bind.mpr ⟨(), s₄, hib, runs_op_bind.mpr ⟨(), t, hob, ?_⟩⟩
  refine runs_attempt_bind.mpr ⟨.error e, t', hfn, ?_⟩
  exact runs_cleanup.mpr hend

/-- The counts behind an error of the transform. -/
theorem Streaming.rejected {infd tmpfd : Int} {tmppath : Path} {t t' : Io Sys} {e : String}
    (ht : Streaming m inp outp isarmor recording io infd tmpfd tmppath t)
    (hfn : Runs pkgHandler (age fn) t (.error e) t') :
    (cleanedUp infd tmpfd tmppath t'.dev).rallocs = io.dev.rallocs ∧
      (Interrupted Sys.failed fn t ↔ t'.dev.failed ≠ t.dev.failed) ∧
      (Interrupted Sys.denied fn t ↔ t'.dev.denied ≠ t.dev.denied) ∧
      ((cleanedUp infd tmpfd tmppath t'.dev).failed ≠ io.dev.failed ↔
        t.dev.failed ≠ io.dev.failed ∨ Interrupted Sys.failed fn t ∨
          UncleanSchedule t.dev ∨ TakenAway tmppath t'.dev) := by
  have hstart := ht.started
  have hrun := runs_age.mp hfn
  have hsince := runs_age_since hrun
  have hfailed : Interrupted Sys.failed fn t ↔ t'.dev.failed ≠ t.dev.failed :=
    interrupted_iff (fun h => h.failed) hrun
  have hclean := @failed_cleanedUp infd tmpfd tmppath t'.dev hstart.apart
    (hsince.opened infd hstart.input) (hsince.opened tmpfd hstart.output)
  refine ⟨?_, hfailed, interrupted_iff (fun h => h.denied) hrun, ?_⟩
  · rw [rallocs_cleanedUp, hsince.rallocs, hstart.since.rallocs]
  · have hschedule : UncleanSchedule t'.dev ↔ UncleanSchedule t.dev := by
      rw [UncleanSchedule, hsince.close, hsince.unlink]
      rfl
    rw [← hschedule, ← hclean.2, hfailed]
    have h₀ := hstart.since.failed
    have h₁ := hsince.failed
    have h₂ := hclean.1
    omega

/-- A transform that gives up at every failure: what the class of its calls
says. -/
theorem toldApart_iff (hclass : failClass ≠ "io") (hfn : ∀ t : Io Sys, AgeHeeds IsError fn t) :
    ToldApart m inp outp isarmor recording overwrite fn failClass io ↔
      ¬ Misclassified m inp outp isarmor recording fn io := by
  constructor
  · rintro htold ⟨infd, tmpfd, tmppath, t, ht, hrallocs, hbad⟩
    -- the transform ends with an error in each case
    obtain ⟨e, t', hrun⟩ : ∃ e t', Runs pkgHandler (age fn) t (.error e) t' := by
      rcases hbad with hint | ⟨e, t', hrun, -⟩
      · obtain ⟨e, t', hrun⟩ := hint.errs ht.started.placed (hfn t)
        exact ⟨e, t', runs_age.mpr hrun⟩
      · exact ⟨e, t', hrun⟩
    obtain ⟨hr, hfailed, hdenied, hclean⟩ := ht.rejected hrun
    obtain ⟨msg, io', hanswer, heq⟩ := runFileTransform_rejects overwrite failClass ht hrun
      (by rw [hr]; exact hrallocs)
    obtain ⟨hio, hclassed⟩ := htold failClass msg io' hanswer
    have hnone : ¬ (cleanedUp infd tmpfd tmppath t'.dev).failed ≠ io.dev.failed :=
      fun hne => hclass (hio (heq ▸ hne))
    rw [hclean] at hnone
    obtain ⟨-, infd', tmpfd', tmppath', u, e', u', hu, hrun', -, hsame⟩ := hclassed rfl
    obtain rfl := ht.unique hu
    obtain ⟨-, rfl⟩ := hrun.unique hrun'
    rcases hbad with hint | ⟨e₁, t₁, hrun₁, hopen | hden | hsched | htaken⟩
    · exact hnone (.inr (.inl hint))
    · exact hnone (.inl hopen)
    · exact hdenied.mp hden hsame
    · exact hnone (.inr (.inr (.inl hsched)))
    · obtain ⟨-, rfl⟩ := hrun.unique hrun₁
      exact hnone (.inr (.inr (.inr htaken)))
  · intro hnot cls msg io' hr
    rcases runFileTransform_err hr with rfl |
      ⟨infd, tmpfd, tmppath, t, e, t', ht, hrun, rfl, hrallocs, heq⟩
    · exact ⟨fun _ => rfl, fun hcls => absurd hcls.symm hclass⟩
    · obtain ⟨hr', hfailed, hdenied, hclean⟩ := ht.rejected hrun
      rw [hr'] at hrallocs
      have hint : ¬ Interrupted Sys.failed fn t := fun h =>
        hnot ⟨infd, tmpfd, tmppath, t, ht, hrallocs, .inl h⟩
      have hrest : ¬ (t.dev.failed ≠ io.dev.failed ∨ Interrupted Sys.denied fn t ∨
          UncleanSchedule t.dev ∨ TakenAway tmppath t'.dev) := fun h =>
        hnot ⟨infd, tmpfd, tmppath, t, ht, hrallocs, .inr ⟨e, t', hrun, h⟩⟩
      have hsame : (cleanedUp infd tmpfd tmppath t'.dev).failed = io.dev.failed := by
        by_contra hne
        rcases hclean.mp hne with hopen | h | hend
        · exact hrest (.inl hopen)
        · exact hint h
        · exact hrest (.inr (.inr hend))
      rw [heq]
      refine ⟨fun hne => absurd hsame hne, fun _ => ⟨hsame, infd, tmpfd, tmppath, t, e, t', ht,
        hrun, ?_, ?_⟩⟩
      · by_contra hne
        exact hint (hfailed.mpr hne)
      · by_contra hne
        exact hrest (.inr (.inl (hdenied.mpr hne)))

end

/-! ## The transforms of the path entry points -/

/-- `tf_encrypt`, `tf_decrypt`, `tf_encrypt_pass` and `tf_decrypt_pass`, with
what they find in their context. -/
inductive Transform where
  | encrypt (recs : List (Bytes 32))
  | decrypt (keys : List (Bytes 32)) (junk : Bytes 16)
  | encryptPass (pass : List UInt8) (cost : Nat)
  | decryptPass (pass : List UInt8) (junk : Bytes 16)

namespace Transform

def fn (C : Crypto) : Transform → Age Unit
  | encrypt recs => Age.rw (ageEncipher C recs)
  | decrypt keys junk => ageDecipher C keys junk
  | encryptPass pass cost => Age.rw (ageEncipherPassphrase C pass cost)
  | decryptPass pass junk => ageDecipherPassphrase C pass junk

def recording : Transform → Bool
  | encrypt _ => false
  | decrypt _ _ => true
  | encryptPass _ _ => false
  | decryptPass _ _ => true

def failClass : Transform → String
  | encrypt _ => "encrypt"
  | decrypt _ _ => "decrypt"
  | encryptPass _ _ => "encrypt"
  | decryptPass _ _ => "decrypt"

theorem failClass_ne_io (tr : Transform) : tr.failClass ≠ "io" := by
  have hne : "encrypt" ≠ "io" ∧ "decrypt" ≠ "io" := by decide
  cases tr with
  | encrypt _ => exact hne.1
  | decrypt _ _ => exact hne.2
  | encryptPass _ _ => exact hne.1
  | decryptPass _ _ => exact hne.2

/-- No transform passes over a failure. -/
theorem fn_heeds (C : Crypto) (tr : Transform) (io : Io Sys) : AgeHeeds IsError (tr.fn C) io := by
  cases tr with
  | encrypt recs => exact rw_heeds (encipher_heeds C _ io)
  | decrypt keys junk => exact ageDecipher_heeds C keys junk io
  | encryptPass pass cost => exact rw_heeds (encipher_heeds C _ io)
  | decryptPass pass junk => exact ageDecipherPassphrase_heeds C pass junk io

end Transform

/-- The class of a call that fails is right, unless a read or a write of the
streaming fails, or the input is rejected in a call in which something else
failed. -/
theorem classes_told_apart_iff (C : Crypto) (tr : Transform) (m : Memory) (inp outp : Path)
    (isarmor overwrite : Bool) (io : Io Sys) :
    ToldApart m inp outp isarmor tr.recording overwrite (tr.fn C) tr.failClass io ↔
      ¬ Misclassified m inp outp isarmor tr.recording (tr.fn C) io :=
  toldApart_iff tr.failClass_ne_io (tr.fn_heeds C)

/-- A file of three bytes whose first read fails. -/
def unreadable : Io Sys :=
  { Io.fresh [([97], [1, 2, 3])] with
    dev := { Sys.steady [([97], [1, 2, 3])] 99 with
      calls := fun c _ => if c = .read then .fail Errno.EIO else .ok 99 } }

/-- The file cannot be read, and the class says that the encryption failed. -/
theorem read_error_misclassified :
    ¬ ∀ (C : Crypto) (tr : Transform) (m : Memory) (inp outp : Path) (isarmor overwrite : Bool)
        (io : Io Sys),
      ToldApart m inp outp isarmor tr.recording overwrite (tr.fn C) tr.failClass io := by
  intro hall
  have hrun : ∃ io', ProgE.Runs pkgHandler
        (runFileTransform Memory.zero [97] [98] false false false
          (Age.rw (ageEncipher Crypto.sample [⟨List.replicate 32 7, by decide⟩])) "encrypt")
        unreadable (.ok (.err "encrypt" "failed to encrypt: ")) io' ∧ io'.dev.failed = 1 :=
    ProgE.exists_runs_at 5000 (by decide +kernel)
  obtain ⟨io', hr, hfailed⟩ := hrun
  have htold := hall Crypto.sample (.encrypt [⟨List.replicate 32 7, by decide⟩]) Memory.zero
    [97] [98] false false unreadable "encrypt" "failed to encrypt: " io' hr
  have hclass := htold.1 (by rw [hfailed]; decide)
  revert hclass
  decide

end Agecrypt
